import AdaptiveSync.Desktop.ImportContent
import AdaptiveSync.Desktop.Synchronisation

/-!
# From the dialog to the server

The user picks files or folders, in a dialog or by dropping them on the window. Each is
imported to the sync root (`upload_local_file`), and what the imports have listed is
synchronised (`handleSync`). The two dialogs give up when an import fails; a drop goes on with
the next path, and hands on a path that is not absolute as it is (`ui/src/App.tsx`).

The imports are made one after another on one disk. Picks that lie apart from each other's
copies (`Separate`) do not disturb each other, so all their files arrive at the sync root
(`importEach_arrived`). The list of an import is made from the paths of the copies, without the
sync root; the commands put the two together again, and what they open is the copy
(`locate_resolvePath`). So every file that was picked comes to the server
(`picked_files_arrive`).
-/

namespace AdaptiveSync

open Fs LexPath Duplex

/-! ### The handlers -/

section Handlers

variable (listing : Listing) (syncRoot : String) (depth : ℕ)

/-- `upload_local_file` of one path after another, up to the first error. -/
def importEach : List String → FileSystem → Option Copied
  | [], fs => some (.ok [], fs)
  | pick :: picks, fs =>
    -- the paths of the imports before an error are not handed on
    match uploadLocalFile listing syncRoot pick depth fs with
    | none => none
    | some (.error e, fs) => some (.error e, fs)
    | some (.ok rel, fs) =>
      match importEach picks fs with
      | none => none
      | some (.error e, fs) => some (.error e, fs)
      | some (.ok rels, fs) => some (.ok (rel ++ rels), fs)

/-- The path begins like an absolute one, on any system. -/
def looksAbsolute : Text → Bool
  | '/' :: _ => true
  | '\\' :: _ => true
  -- a drive, as in `C:\`
  | c :: ':' :: '\\' :: _ => c.isAlpha
  | _ => false

/-- The loop of `handleFilesDropped`. A path whose import fails is left out. -/
def importDropped : List String → FileSystem → Option (List String × FileSystem)
  | [], fs => some ([], fs)
  | path :: paths, fs =>
    if looksAbsolute path.toList then
      match uploadLocalFile listing syncRoot path depth fs with
      | none => none
      -- the error is only logged
      | some (.error _, fs) => importDropped paths fs
      | some (.ok rel, fs) => (importDropped paths fs).map fun r => (rel ++ r.1, r.2)
    else (importDropped paths fs).map fun r => (path :: r.1, r.2)

/-- `handleOpenFileDialog`, up to the call of `handleSync`: its argument, if it is called, and
the disk. -/
def handleOpenFileDialog (connected : Bool) (selected : Option (List String)) (fs : FileSystem) :
    Option (Option (List String) × FileSystem) :=
  if !connected then some (none, fs)
  else
    match selected with
    | none => some (none, fs)
    | some paths =>
      match importEach listing syncRoot depth paths fs with
      | none => none
      | some (.error _, fs) => some (none, fs)
      | some (.ok relPaths, fs) => some (some relPaths, fs)

/-- `handleOpenFolderDialog`. -/
def handleOpenFolderDialog (connected : Bool) (selected : Option String) (fs : FileSystem) :
    Option (Option (List String) × FileSystem) :=
  if !connected then some (none, fs)
  else
    match selected with
    | none => some (none, fs)
    | some folder =>
      -- an empty text is falsy
      if folder = "" then some (none, fs)
      else match uploadLocalFile listing syncRoot folder depth fs with
      | none => none
      | some (.error _, fs) => some (none, fs)
      | some (.ok relPaths, fs) => some (some relPaths, fs)

/-- `handleFilesDropped`. -/
def handleFilesDropped (connected : Bool) (filePaths : List String) (fs : FileSystem) :
    Option (Option (List String) × FileSystem) :=
  if !connected then some (none, fs)
  else (importDropped listing syncRoot depth filePaths fs).map fun r => (some r.1, r.2)

end Handlers

/-! ### Texts of copies -/

/-- A name behind a relative text is behind the text that this one is put behind. -/
theorem append_sep {root t : Text} {n : Name} (hne : t ≠ []) (ht : isAbsolute t = false)
    (hlast : t.getLast? ≠ some '/') (hn : isAbsolute n = false) :
    append root (t ++ '/' :: n) = append (append root t) n := by
  have habs : isAbsolute (t ++ '/' :: n) = false := by
    cases t with
    | nil => exact absurd rfl hne
    | cons c t => exact ht
  -- what ends in `t` does not end in a separator
  have hend : ∀ r : Text, ¬ (r ++ t = [] ∨ (r ++ t).getLast? = some '/') := by
    intro r
    rw [List.getLast?_append_of_ne_nil _ hne]
    simp [hne, hlast]
  have hend' : ¬ (root ++ '/' :: t = [] ∨ (root ++ '/' :: t).getLast? = some '/') := by
    rw [List.append_cons]
    exact hend _
  unfold append
  simp only [habs, ht, hn, Bool.false_eq_true, if_false]
  by_cases hroot : root = [] ∨ root.getLast? = some '/'
  · rw [if_pos hroot, if_pos hroot, if_neg (hend root), List.append_assoc]
  · rw [if_neg hroot, if_neg hroot, if_neg hend', List.append_assoc, List.cons_append]

/-- File names put together are a relative text that does not end in a separator. -/
theorem intercalate_relative {ns : List Name} (hne : ns ≠ []) (hns : ∀ n ∈ ns, FileName n) :
    ['/'].intercalate ns ≠ [] ∧ isAbsolute (['/'].intercalate ns) = false ∧
      (['/'].intercalate ns).getLast? ≠ some '/' := by
  have hname : ∀ n, FileName n → n ≠ [] ∧ isAbsolute n = false ∧ n.getLast? ≠ some '/' :=
    fun n hn => ⟨hn.1.1, isAbsolute_fileName hn, fun hc => hn.2 (List.mem_of_getLast? hc)⟩
  induction ns with
  | nil => exact absurd rfl hne
  | cons m ns ih =>
    obtain ⟨hm, hm', hm''⟩ := hname m (hns m List.mem_cons_self)
    cases ns with
    | nil =>
      rw [List.intercalate_singleton]
      exact ⟨hm, hm', hm''⟩
    | cons k ns =>
      obtain ⟨hk, -, hk''⟩ := ih (by simp) fun n hn => hns n (List.mem_cons_of_mem m hn)
      rw [List.intercalate_cons_of_ne_nil (List.cons_ne_nil k ns)]
      refine ⟨by simp [hm], ?_, ?_⟩
      · cases m with
        | nil => exact absurd rfl hm
        | cons c m => exact hm'
      · rw [List.getLast?_append_of_ne_nil _ hk]
        exact hk''

/-- **File names put behind a text** lead below its location, one after another. -/
theorem locate_append_intercalate {fs : FileSystem} {root : Text} (ns : List Name)
    (hns : ∀ n ∈ ns, FileName n) (hne : ns ≠ []) :
    fs.locate (append root (['/'].intercalate ns)) = fs.locate root ++ ns := by
  -- the last name is the last one that is walked
  induction ns using List.reverseRecOn with
  | nil => exact absurd rfl hne
  | append_singleton ns n ih =>
    have hn : FileName n := hns n (by simp)
    have hns' : ∀ m ∈ ns, FileName m := fun m hm => hns m (by simp [hm])
    by_cases hempty : ns = []
    · rw [hempty, List.nil_append, List.intercalate_singleton, locate_append hn]
    · obtain ⟨h₁, h₂, h₃⟩ := intercalate_relative hempty hns'
      rw [intercalate_concat hempty, append_sep h₁ h₂ h₃ (isAbsolute_fileName hn),
        locate_append hn, ih hns' hempty, List.append_assoc]

/-! ### Imports one after another -/

/-- The name that a pick has at the sync root. -/
def pickName (pick : String) : Name := (fileName pick.toList).getD []

/-- Where a pick is copied to. -/
def destination (fs : FileSystem) (syncRoot pick : String) : Loc :=
  fs.locate (append syncRoot.toList (pickName pick))

/-- The picks lie apart from the copies, and the copies from each other. -/
structure Separate (fs : FileSystem) (syncRoot : String) (picks : List String) : Prop where
  sources : ∀ p ∈ picks, ∀ p' ∈ picks, Beside (destination fs syncRoot p) (fs.locate p'.toList)
  copies : picks.Pairwise fun p p' =>
    Beside (destination fs syncRoot p) (destination fs syncRoot p')

/-- A file of a pick, by the names that lead to it. -/
def PickedFile (fs : FileSystem) (pick : String) (q : List Name) (c : List UInt8) : Prop :=
  (∀ n ∈ q, FileName n) ∧ fs.found (below pick.toList q) = some (.file c)

/-- The picks have been imported: their files are listed and copied, and what is not below a
copy is as it was. -/
structure Arrived (fs fs' : FileSystem) (syncRoot : String) (picks results : List String) :
    Prop where
  os : fs'.os = fs.os
  tree : fs'.Tree
  named : ∀ p ∈ picks, FileName (pickName p)
  beside : ∀ l, (∀ p ∈ picks, ¬ destination fs syncRoot p <+: l) → fs'.fileAt l = fs.fileAt l
  listed : ∀ p ∈ picks, ∀ q c, PickedFile fs p q c → relPath (pickName p) q ∈ results
  copied : ∀ p ∈ picks, ∀ q c, PickedFile fs p q c →
    fs'.fileAt (destination fs syncRoot p ++ q) = some c

section Imports

variable {fs fs' fs'' : FileSystem} {syncRoot p : String} {picks rel rels : List String}

theorem destination_congr (h : fs'.os = fs.os) (p : String) :
    destination fs' syncRoot p = destination fs syncRoot p := by
  rw [destination, destination, FileSystem.locate_congr h]

theorem Separate.sublist {picks' : List String} (h : Separate fs syncRoot picks)
    (hsub : picks'.Sublist picks) (hos : fs'.os = fs.os) : Separate fs' syncRoot picks' := by
  refine ⟨fun r hr r' hr' => ?_, (h.copies.sublist hsub).imp fun {r r'} hb => ?_⟩
  · rw [destination_congr hos, FileSystem.locate_congr hos]
    exact h.sources r (hsub.subset hr) r' (hsub.subset hr')
  · rwa [destination_congr hos, destination_congr hos]

/-- A pick below which no file has changed. -/
theorem pickedFile_congr (hos : fs'.os = fs.os)
    (h : ∀ q, fs'.fileAt (fs.locate p.toList ++ q) = fs.fileAt (fs.locate p.toList ++ q))
    {q : List Name} {c : List UInt8} : PickedFile fs' p q c ↔ PickedFile fs p q c := by
  refine and_congr_right fun hq => ?_
  rw [FileSystem.found_eq_file_iff, FileSystem.found_eq_file_iff, FileSystem.locate_congr hos,
    locate_below hq, h]

/-- An import leaves the files of the other picks. -/
theorem Arrived.pickedFile_iff (h : Arrived fs fs' syncRoot [p] rel) {r : String}
    (hb : Beside (destination fs syncRoot p) (fs.locate r.toList)) {q : List Name}
    {c : List UInt8} : PickedFile fs' r q c ↔ PickedFile fs r q c := by
  refine pickedFile_congr h.os fun q => h.beside _ fun r' hr' => ?_
  rw [List.mem_singleton.mp hr']
  exact hb.below q

/-- The first import and the rest. -/
theorem Arrived.cons (h : Arrived fs fs' syncRoot [p] rel)
    (hrest : Arrived fs' fs'' syncRoot picks rels) (hsep : Separate fs syncRoot (p :: picks)) :
    Arrived fs fs'' syncRoot (p :: picks) (rel ++ rels) := by
  obtain ⟨hfirst, -⟩ := List.pairwise_cons.mp hsep.copies
  have hsource : ∀ r ∈ picks, ∀ {q c}, PickedFile fs r q c → PickedFile fs' r q c :=
    fun r hr _ _ hfile =>
    (h.pickedFile_iff (hsep.sources p List.mem_cons_self r (List.mem_cons_of_mem p hr))).mpr hfile
  refine ⟨hrest.os.trans h.os, hrest.tree, ?_, fun l hl => ?_, ?_, ?_⟩
  · exact List.forall_mem_cons.mpr ⟨h.named p List.mem_cons_self, hrest.named⟩
  · obtain ⟨hp, hpicks⟩ := List.forall_mem_cons.mp hl
    rw [hrest.beside l fun r hr => destination_congr h.os r ▸ hpicks r hr]
    exact h.beside l fun r hr => List.mem_singleton.mp hr ▸ hp
  · refine List.forall_mem_cons.mpr ⟨fun q c hfile => ?_, fun r hr q c hfile => ?_⟩
    · exact List.mem_append_left _ (h.listed p List.mem_cons_self q c hfile)
    · exact List.mem_append_right _ (hrest.listed r hr q c (hsource r hr hfile))
  · refine List.forall_mem_cons.mpr ⟨fun q c hfile => ?_, fun r hr q c hfile => ?_⟩
    · -- the other copies are beside this one
      rw [hrest.beside _ fun r hr => ?_]
      · exact h.copied p List.mem_cons_self q c hfile
      · rw [destination_congr h.os]
        exact (hfirst r hr).symm.below q
    · rw [← destination_congr h.os]
      exact hrest.copied r hr q c (hsource r hr hfile)

variable {listing : Listing} {depth : ℕ}

/-- A pick without a name is refused before anything is copied. -/
theorem fileName_of_import
    (hrun : uploadLocalFile listing syncRoot p depth fs = some (.ok rel, fs')) :
    fileName p.toList = some (pickName p) := by
  cases hname : fileName p.toList with
  | none =>
    unfold uploadLocalFile StdFs.uploadLocalFile at hrun
    simp [hname] at hrun
  | some name => rw [pickName, hname, Option.getD_some]

/-- One import. -/
theorem uploadLocalFile_arrived (htree : fs.Tree)
    (hvisible : (StdFs.plain listing).Visible fs p.toList)
    (hb : Beside (destination fs syncRoot p) (fs.locate p.toList))
    (hrun : uploadLocalFile listing syncRoot p depth fs = some (.ok rel, fs')) :
    Arrived fs fs' syncRoot [p] rel := by
  have hname := fileName_of_import hrun
  have hran : ∃ qs, Ran (StdFs.plain listing) fs p.toList (append syncRoot.toList (pickName p))
      (pickName p) (fun _ => True) fs fs' rel qs := uploadLocalFile_ran hname hrun
  obtain ⟨qs, hran⟩ := hran
  have hspared := @StdFs.spared_of_beside (StdFs.plain listing) fs p.toList
    (append syncRoot.toList (pickName p)) _ _ hb.symm (fun _ => locate_below)
    (fun _ => locate_below) fs.fileAt
  have himported : (StdFs.plain listing).Imported fs fs' p.toList
      (append syncRoot.toList (pickName p)) (pickName p) rel :=
    StdFs.imported_of_spared hname (fun ht hn => htree.found_of_append ht hn) hrun
      ⟨hvisible, hspared⟩
  refine ⟨hran.edits.os, hran.edits.tree htree, ?_, fun l hl => ?_, ?_, ?_⟩
  · exact List.forall_mem_singleton.mpr (fileName_of_eq_some hname)
  · refine hran.runs.outside fun q hq heq => hl p List.mem_cons_self ?_
    exact ⟨q, (heq.trans (locate_below hq.1)).symm⟩
  · refine List.forall_mem_singleton.mpr fun q c hfile => ?_
    rw [← List.count_pos_iff, (himported q c hfile).2.2]
    exact Nat.one_pos
  · refine List.forall_mem_singleton.mpr fun q c hfile => ?_
    rw [destination, ← locate_below hfile.1]
    exact (himported q c hfile).2.1

/-- **All imports.** -/
theorem importEach_arrived : ∀ {fs : FileSystem} {rels : List String}, fs.Tree →
    (∀ p ∈ picks, (StdFs.plain listing).Visible fs p.toList) → Separate fs syncRoot picks →
      importEach listing syncRoot depth picks fs = some (.ok rels, fs') →
        Arrived fs fs' syncRoot picks rels := by
  induction picks with
  | nil =>
    intro fs rels htree _ _ hrun
    obtain ⟨hrels, rfl⟩ := Prod.mk.inj (Option.some.inj hrun)
    exact ⟨rfl, htree, by simp, fun _ _ => rfl, by simp, by simp⟩
  | cons p picks ih =>
    intro fs rels htree hvisible hsep hrun
    unfold importEach at hrun
    split at hrun
    · exact absurd hrun (by simp)
    · exact absurd hrun (by simp)
    next rel fs₁ hfirst =>
    have harrived := uploadLocalFile_arrived htree (hvisible p List.mem_cons_self)
      (hsep.sources p List.mem_cons_self p List.mem_cons_self) hfirst
    split at hrun
    · exact absurd hrun (by simp)
    · exact absurd hrun (by simp)
    next rels' fs₂ hrest =>
    obtain ⟨hrels, rfl⟩ := Prod.mk.inj (Option.some.inj hrun)
    obtain rfl := Except.ok.inj hrels
    refine harrived.cons (ih harrived.tree (fun r hr q c hfile => ?_) (hsep.sublist
      (List.sublist_cons_self p picks) harrived.os) hrest) hsep
    -- the sources of the other picks are as they were, so they can still be looked up
    have hmem := List.mem_cons_of_mem p hr
    exact ((StdFs.plain listing).seen_congr harrived.os).mpr (hvisible r hmem q c
      ((harrived.pickedFile_iff (hsep.sources p List.mem_cons_self r hmem)).mp hfile))

end Imports

/-! ### What the handlers hand on -/

/-- A handler has imported the picks, without an error, and calls `handleSync` with the list. -/
inductive Handed (listing : Listing) (syncRoot : String) (depth : ℕ) (picks : List String)
    (fs : FileSystem) (rels : List String) (fs' : FileSystem) : Prop
  | files (h : handleOpenFileDialog listing syncRoot depth true (some picks) fs =
      some (some rels, fs'))
  | folder (folder : String) (hpicks : picks = [folder])
      (h : handleOpenFolderDialog listing syncRoot depth true (some folder) fs =
        some (some rels, fs'))
  | dropped (habs : ∀ p ∈ picks, looksAbsolute p.toList = true)
      (hall : ∃ imported fs₁, importEach listing syncRoot depth picks fs =
        some (.ok imported, fs₁))
      (h : handleFilesDropped listing syncRoot depth true picks fs = some (some rels, fs'))

section Handed

variable {listing : Listing} {syncRoot : String} {depth : ℕ} {picks rels : List String}
  {fs fs' : FileSystem}

/-- A drop whose imports all succeed is imported like the files of a dialog. -/
theorem importDropped_of_importEach : ∀ {fs : FileSystem} {rels : List String},
    (∀ p ∈ picks, looksAbsolute p.toList = true) →
      importEach listing syncRoot depth picks fs = some (.ok rels, fs') →
        importDropped listing syncRoot depth picks fs = some (rels, fs') := by
  induction picks with
  | nil =>
    intro fs rels _ hrun
    obtain ⟨hrels, rfl⟩ := Prod.mk.inj (Option.some.inj hrun)
    rw [← Except.ok.inj hrels, importDropped]
  | cons p picks ih =>
    intro fs rels habs hrun
    obtain ⟨hp, hpicks⟩ := List.forall_mem_cons.mp habs
    unfold importEach at hrun
    split at hrun
    · exact absurd hrun (by simp)
    · exact absurd hrun (by simp)
    next rel fs₁ hfirst =>
    split at hrun
    · exact absurd hrun (by simp)
    · exact absurd hrun (by simp)
    next rels' fs₂ hrest =>
    obtain ⟨hrels, rfl⟩ := Prod.mk.inj (Option.some.inj hrun)
    rw [importDropped, if_pos hp, hfirst]
    dsimp only
    rw [ih hpicks hrest, ← Except.ok.inj hrels]
    rfl

/-- **All three** have made the imports one after another. -/
theorem Handed.importEach (h : Handed listing syncRoot depth picks fs rels fs') :
    importEach listing syncRoot depth picks fs = some (.ok rels, fs') := by
  cases h with
  | files h =>
    unfold handleOpenFileDialog at h
    simp only [Bool.not_true, Bool.false_eq_true, if_false] at h
    split at h
    · exact absurd h (by simp)
    · exact absurd h (by simp)
    next rels' fs₁ hrun =>
    obtain ⟨hrels, rfl⟩ := Prod.mk.inj (Option.some.inj h)
    rw [hrun, Option.some.inj hrels]
  | folder folder hpicks h =>
    subst hpicks
    unfold handleOpenFolderDialog at h
    simp only [Bool.not_true, Bool.false_eq_true, if_false] at h
    split at h
    · exact absurd h (by simp)
    split at h
    · exact absurd h (by simp)
    · exact absurd h (by simp)
    -- a folder is a list of one pick
    next rels' fs₁ hrun =>
    obtain ⟨hrels, rfl⟩ := Prod.mk.inj (Option.some.inj h)
    rw [AdaptiveSync.importEach, hrun, ← Option.some.inj hrels]
    simp [AdaptiveSync.importEach]
  | dropped habs hall h =>
    obtain ⟨imported, fs₁, hrun⟩ := hall
    unfold handleFilesDropped at h
    rw [importDropped_of_importEach habs hrun] at h
    simp only [Bool.not_true, Bool.false_eq_true, if_false, Option.map_some] at h
    obtain ⟨hrels, rfl⟩ := Prod.mk.inj (Option.some.inj h)
    rw [hrun, Option.some.inj hrels]

end Handed

/-! ### From the dialog to the server -/

section Whole

variable {env : Env} {cl : TcpClient} {client : InstalledClient} {text : ClientError → String}
  {b : UInt32} {app : App} {files : List SyncFile} {srv : Server} {listing : Listing} {depth : ℕ}
  {picks rels : List String} {disk disk' : FileSystem}

/-- **What the commands open is the copy.** -/
theorem locate_resolvePath (ops : FileOps) {fs : FileSystem} {pick : String}
    (hname : FileName (pickName pick)) {q : Loc} (hq : ∀ n ∈ q, FileName n) :
    fs.locate (ops.resolvePath (relPath (pickName pick) q)) =
      destination fs ops.syncRoot pick ++ q := by
  have hnames : ∀ n ∈ pickName pick :: q, FileName n := List.forall_mem_cons.mpr ⟨hname, hq⟩
  rw [FileOps.resolvePath, relPath, String.toList_ofList,
    locate_append_intercalate _ hnames (List.cons_ne_nil _ _), destination, locate_append hname,
    List.append_cons]

/-- A file that is synchronised under the path of a copy has the content of the source. -/
theorem content_of_copied (hos : disk'.os = disk.os) {pick : String}
    (hname : FileName (pickName pick)) {q : List Name} {c : Bytes}
    (hfile : PickedFile disk pick q c)
    (hcopy : disk'.fileAt (destination disk cl.fileOps.syncRoot pick ++ q) = some c)
    {f : SyncFile} (hdisk : f.disk = disk') (hpath : f.path = relPath (pickName pick) q)
    (hreadable : cl.fileOps.Readable f.disk f.path f.content) : f.content = c := by
  -- file names are walked without a detour
  have hnode := FileSystem.node_of_stat hreadable.stat
  rw [hpath, locate_resolvePath _ hname hfile.1, hdisk, destination_congr hos,
    ← FileSystem.fileAt_eq_some_iff, hcopy] at hnode
  exact (Option.some.inj hnode).symm

/-- **What is picked comes to the server.** On a disk without symbolic and hard links the picks
lie apart from each other's copies and can be looked up, and a handler has imported them; the
files it lists are synchronised. In every interleaving the queue ends with a complete job for
each, and the server has every file of every pick, as it was on the user's disk. -/
theorem picked_files_arrive
    (hhanded : Handed listing cl.fileOps.syncRoot depth picks disk rels disk')
    (htree : disk.Tree) (hvisible : ∀ p ∈ picks, (StdFs.plain listing).Visible disk p.toList)
    (hseparate : Separate disk cl.fileOps.syncRoot picks)
    (hpaths : files.map (fun f => f.path) = rels) (hdisk : ∀ f ∈ files, f.disk = disk')
    (hpaired : Paired cl b) (hrest : Resting b (Link.start srv))
    (hsendable : QueueSendable env cl b files srv.fs) (hsyncing : app.syncing = false)
    (harrives : ∀ f ∈ files, f.Arrives b) :
    ∀ cfg, SyncAllReach env cl client text app files srv cfg →
      Terminal (machine env) Sent.view cfg →
        ∃ app', cfg.client = .ret app' ∧
          (newJobs app app').map TransferJob.relativePath = rels ∧
          (∀ j ∈ newJobs app app', j.status = .complete) ∧
          ∀ pick ∈ picks, ∀ q c, PickedFile disk pick q c →
            ∃ f ∈ files, f.path = relPath (pickName pick) q ∧
              cfg.link.server.fs.node (cfg.link.server.fs.locate f.target) = some (.file c) := by
  intro cfg hreach hterm
  have harrived := importEach_arrived htree hvisible hseparate hhanded.importEach
  obtain ⟨app', hret, hjobs, hcomplete, hstored⟩ :=
    queueDelivers_of_arrives hpaired hrest hsendable.toQueueReady hsyncing harrives cfg hreach hterm
  refine ⟨app', hret, hjobs.trans hpaths, hcomplete, fun pick hpick q c hfile => ?_⟩
  -- the queue has the file, with the content of its copy
  have hlisted := harrived.listed pick hpick q c hfile
  rw [← hpaths] at hlisted
  obtain ⟨f, hf, hpath⟩ := List.mem_map.mp hlisted
  have hcontent := content_of_copied harrived.os (harrived.named pick hpick) hfile
    (harrived.copied pick hpick q c hfile) (hdisk f hf) hpath (hsendable.known f hf).readable
  exact ⟨f, hf, hpath, hcontent ▸ hstored f hf⟩

end Whole

/-- The sync root after the import of a file of one byte. -/
def importedDisk : FileSystem :=
  (((FileSystem.single ['d'] ['f'] (some [1])).set [['c']] .dir).set [['c'], ['f']]
    (.file [])).set [['c'], ['f']] (.file [1])

/-- The file as the queue has it. -/
def importedFile : SyncFile := { sampleFile none with disk := importedDisk }

theorem sendable_imported : QueueSendable storageEnv (sampleClient 4096) 4096 [importedFile]
    (FileSystem.single ['s'] ['f'] none) := by
  have hreadable : ∀ ops : FileOps, ops.syncRoot = "c" →
      ops.Readable importedDisk "f" [1] := by
    intro ops hops
    refine ⟨⟨FileSystem.quiet_of_calm rfl, ?_, by decide⟩, FileSystem.fullReads_of_calm rfl⟩
    rw [FileOps.resolvePath, hops]
    rfl
  have hknown := @known_sample none fun _ h => absurd h (by simp)
  refine ⟨⟨List.forall_mem_singleton.mpr ?_, ?_, List.pairwise_singleton _ _⟩,
    by simp [importedFile, sampleFile]⟩
  · exact { hknown with readable := hreadable _ rfl, engine_readable := hreadable _ rfl }
  · exact List.forall_mem_singleton.mpr (ready_sample.holds (sampleFile none) List.mem_cons_self)

/-- Its synchronisation comes to an end. -/
theorem exists_synced_imported : ∃ cfg, SyncAllReach storageEnv (sampleClient 4096)
      ⟨0, "a:9000", 4096, "c"⟩ (fun _ => "error") ⟨[], [], false⟩ [importedFile]
      ((Server.new 4096 (FileSystem.single ['s'] ['f'] none)).setState .ready) cfg ∧
    Terminal (machine storageEnv) Sent.view cfg := by
  have hsettled := settled_start storageEnv
    ((Server.new 4096 (FileSystem.single ['s'] ['f'] none)).setState .ready)
  exact ⟨_, exec_reach _ hsettled, exec_terminal _ hsettled⟩

/-- A file is picked in the dialog, and the server does not have it. -/
theorem picked_files_arrive_one : ∃ cfg app',
    SyncAllReach storageEnv (sampleClient 4096) ⟨0, "a:9000", 4096, "c"⟩ (fun _ => "error")
      ⟨[], [], false⟩ [importedFile]
      ((Server.new 4096 (FileSystem.single ['s'] ['f'] none)).setState .ready) cfg ∧
    cfg.client = .ret app' ∧ app'.transfers.map TransferJob.relativePath = ["f"] ∧
      cfg.link.server.fs.node (cfg.link.server.fs.locate "s/f".toList) = some (.file [1]) := by
  have hhanded : Handed (.first fun _ => none) "c" 1 ["/d/f"]
      (FileSystem.single ['d'] ['f'] (some [1])) ["f"] importedDisk := .files rfl
  obtain ⟨cfg, hreach, hterm⟩ := exists_synced_imported
  obtain ⟨app', hret, hjobs, -, hfiles⟩ := picked_files_arrive hhanded
    (FileSystem.tree_single _ (by decide) (by decide))
    (List.forall_mem_singleton.mpr fun _ _ _ _ _ => rfl)
    ⟨by decide, List.pairwise_singleton _ _⟩ rfl (List.forall_mem_singleton.mpr rfl) paired_sample
    (resting_sample _) sendable_imported (by rfl)
    (by simp [SyncFile.Arrives, importedFile, sampleFile]) cfg hreach hterm
  obtain ⟨f, hf, -, hnode⟩ := hfiles "/d/f" List.mem_cons_self [] [1] ⟨by simp, rfl⟩
  rw [List.mem_singleton.mp hf] at hnode
  exact ⟨cfg, app', hreach, hret, hjobs, hnode⟩

end AdaptiveSync
