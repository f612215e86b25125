import AdaptiveSync.Desktop.PickedFiles

/-!
# Drops in which imports fail

`handleFilesDropped` goes on when the import of a path fails, and what the failed import has
copied by then stays at the sync root. However it ends, an import only writes below its
destination (`uploadLocalFile_edits`), so it does no harm to the picks whose destinations and
sources lie apart from it (`dropOutcomes_arrived`). All files of those whose imports succeed
come to the server (`dropped_files_arrive`).

The loop of the handler keeps the lists of the imports only; `dropOutcomes` is the same loop
with what came of each path (`importDropped_eq`).
-/

namespace AdaptiveSync

open Fs LexPath Duplex

/-! ### Imports that fail -/

section Failing

variable {listing : Listing} {fs fs' : FileSystem} {base src dst : Text} {S : Set Loc}

theorem copyFile_edits (hS : fs.locate dst ∈ S) :
    FileSystem.Edits S fs (copyFile fs src dst).2 := by
  unfold copyFile
  split
  · exact .refl
  · exact .refl
  split
  · exact .refl
  next opened hopen =>
  have hedits := FileSystem.Edits.openTruncate hopen hS
  have hopened := (FileSystem.canOpenWrite_of_openTruncate hopen).2
  have hdst : opened.locate dst ∈ S := by rwa [FileSystem.locate_congr hedits.os]
  extract_lets bytes
  split
  · exact hedits.trans (.torn 0 bytes hopened hdst)
  split
  · exact hedits.trans (.torn 0 bytes hopened hdst)
  · next written hwrite => exact hedits.trans (.pwrite hopened hwrite hdst)

theorem copySingle_edits (std : StdFs) (hS : fs.locate (std.real fs dst) ∈ S) :
    FileSystem.Edits S fs (std.copySingle base src dst fs).2 := by
  have hmade : FileSystem.Edits S fs (std.createDirAll fs (parentPath dst)).1 :=
    (std.edits_createDirAll fs _).mono fun _ hc => hc.elim
  unfold StdFs.copySingle
  split
  · next made heq =>
    rw [heq] at hmade
    exact hmade
  · next made heq =>
    rw [heq] at hmade
    have hcopied : FileSystem.Edits S fs
        (copyFile made (std.real made src) (std.real made dst)).2 :=
      hmade.trans (copyFile_edits
        (by rwa [FileSystem.locate_congr hmade.os, std.real_congr hmade.os]))
    split
    · next hcopy => rwa [hcopy] at hcopied
    · next hcopy =>
      rw [hcopy] at hcopied
      split <;> exact hcopied

theorem copyEntries_edits {os : Os} {copy : Text → Text → FileSystem → Option Copied}
    {entries : List (Except String Name)}
    (hcopy : ∀ {fs copied n}, .ok n ∈ entries → fs.os = os →
      copy (append src n) (append dst n) fs = some copied → FileSystem.Edits S fs copied.2) :
    ∀ {fs : FileSystem} {copied : Copied}, fs.os = os →
      copyEntries copy src dst entries fs = some copied → FileSystem.Edits S fs copied.2 := by
  induction entries with
  | nil =>
    intro fs copied _ hrun
    rw [← Option.some.inj hrun]
    exact .refl
  | cons entry entries ih =>
    intro fs copied hos hrun
    have hrest := @ih fun hn => hcopy (List.mem_cons_of_mem entry hn)
    cases entry with
    | error e =>
      rw [← Option.some.inj hrun]
      exact .refl
    | ok n =>
      unfold copyEntries at hrun
      split at hrun
      · exact absurd hrun (by simp)
      · next e fs₁ hfirst =>
        rw [← Option.some.inj hrun]
        exact hcopy List.mem_cons_self hos hfirst
      -- the first entry is done, and the loop goes on from the disk it has left
      next sub fs₁ hfirst =>
      have hedits := hcopy List.mem_cons_self hos hfirst
      have hos₁ : fs₁.os = os := hedits.os.trans hos
      split at hrun
      · exact absurd hrun (by simp)
      · next e fs₂ hloop =>
        rw [← Option.some.inj hrun]
        exact hedits.trans (hrest hos₁ hloop)
      · next results fs₂ hloop =>
        have hedits₂ := hrest hos₁ hloop
        rw [← Option.some.inj hrun]
        exact hedits.trans hedits₂

/-- **A copy writes below its destination**, however it ends. -/
theorem copyRecursive_edits {D : Loc} (depth : ℕ) :
    ∀ {fs : FileSystem} {src dst : Text} {copied : Copied}, D <+: fs.locate dst →
      copyRecursive listing base depth src dst fs = some copied →
        FileSystem.Edits {l | D <+: l} fs copied.2 := by
  induction depth with
  | zero =>
    intro fs src dst copied _ hrun
    exact absurd hrun (by simp [copyRecursive, StdFs.copyRecursive])
  | succ depth ih =>
    intro fs src dst copied hD hrun
    -- directories are no files, so it does not matter where they are made
    have hmade : FileSystem.Edits {l | D <+: l} fs (fs.mkdirs (fs.locate dst)).1 :=
      .mkdirs fun _ hn => FileSystem.spelled_of_mem_locate hn
    by_cases hstat : fs.stat src = .dir
    · obtain ⟨-, -, heq⟩ | ⟨-, e, heq⟩ := copyRecursive_dir listing base depth dst hstat rfl
      · rw [heq] at hrun
        refine hmade.trans (copyEntries_edits (fun {fs' _ n} hn hos hcopy => ih ?_ hcopy) rfl hrun)
        have hname : FileName n := listing.named _ _ n hn
        rw [locate_append hname, FileSystem.locate_congr (hos.trans hmade.os)]
        exact hD.trans (List.prefix_append _ _)
      · rw [heq] at hrun
        rw [← Option.some.inj hrun]
        exact hmade
    by_cases hfile : ∃ b, fs.stat src = .file b
    · obtain ⟨b, hfile⟩ := hfile
      have hsingle := (StdFs.plain listing).copyRecursive_file base depth dst hfile
      rw [← Option.some.inj (hsingle.symm.trans hrun)]
      exact copySingle_edits _ hD
    · rw [copyRecursive_other listing base depth dst hstat (not_exists.mp hfile)] at hrun
      rw [← Option.some.inj hrun]
      exact .refl

/-- So does an import. -/
theorem uploadLocalFile_edits {syncRoot p : String} {depth : ℕ} {copied : Copied}
    (hrun : uploadLocalFile listing syncRoot p depth fs = some copied) :
    FileSystem.Edits {l | fileName p.toList ≠ none ∧ destination fs syncRoot p <+: l} fs
      copied.2 := by
  have hmade : ∀ S, FileSystem.Edits S fs (fs.mkdirs (fs.locate syncRoot.toList)).1 :=
    fun S => .mkdirs fun _ hn => FileSystem.spelled_of_mem_locate hn
  unfold uploadLocalFile StdFs.uploadLocalFile at hrun
  cases hname : fileName p.toList with
  | none =>
    simp only [hname] at hrun
    rw [← Option.some.inj hrun]
    exact .refl
  | some name =>
    obtain rfl : pickName p = name := by rw [pickName, hname, Option.getD_some]
    simp only [hname] at hrun
    split at hrun
    · next made heq =>
      have hroot := hmade {l | some (pickName p) ≠ none ∧ destination fs syncRoot p <+: l}
      rw [show fs.mkdirs (fs.locate syncRoot.toList) = _ from heq] at hroot
      rw [← Option.some.inj hrun]
      exact hroot
    · next made heq =>
      obtain rfl : (fs.mkdirs (fs.locate syncRoot.toList)).1 = made := congrArg Prod.fst heq
      refine (hmade _).trans ((copyRecursive_edits depth ?_ hrun).mono fun l hl => ⟨by simp, hl⟩)
      rw [FileSystem.mkdirs_locate]
      exact List.prefix_refl _

end Failing

/-! ### Drops -/

/-- The dropped paths that are imported: those that look absolute and have a name. -/
def importsOf (paths : List String) : List String :=
  paths.filter fun p => looksAbsolute p.toList && (fileName p.toList).isSome

/-- What comes of each path of a drop. A path that is not imported stands for itself. -/
def dropOutcomes (listing : Listing) (syncRoot : String) (depth : ℕ) :
    List String → FileSystem → Option (List (String × Except String (List String)) × FileSystem)
  | [], fs => some ([], fs)
  | p :: paths, fs =>
    if looksAbsolute p.toList then
      match uploadLocalFile listing syncRoot p depth fs with
      | none => none
      | some (r, fs) =>
        (dropOutcomes listing syncRoot depth paths fs).map fun o => ((p, r) :: o.1, o.2)
    else (dropOutcomes listing syncRoot depth paths fs).map fun o => ((p, .ok [p]) :: o.1, o.2)

/-- The paths that are handed on. -/
def handedOn (outcomes : List (String × Except String (List String))) : List String :=
  outcomes.flatMap fun o => o.2.toOption.getD []

section Drops

variable {listing : Listing} {syncRoot p : String} {depth : ℕ} {paths : List String}
  {outcomes : List (String × Except String (List String))} {fs fs' : FileSystem}

theorem importDropped_eq (paths : List String) : ∀ fs : FileSystem,
    importDropped listing syncRoot depth paths fs =
      (dropOutcomes listing syncRoot depth paths fs).map fun o => (handedOn o.1, o.2) := by
  induction paths with
  | nil => exact fun _ => rfl
  | cons p paths ih =>
    intro fs
    unfold importDropped dropOutcomes
    split
    · split
      · next hnone => rw [hnone]; rfl
      · next e fs₁ hfail =>
        rw [hfail, ih fs₁]
        dsimp only
        cases dropOutcomes listing syncRoot depth paths fs₁ <;> rfl
      · next rel fs₁ hok =>
        rw [hok, ih fs₁]
        dsimp only
        cases dropOutcomes listing syncRoot depth paths fs₁ <;> rfl
    · rw [ih fs]
      cases dropOutcomes listing syncRoot depth paths fs <;> rfl

theorem mem_importsOf {q : String} : q ∈ importsOf paths ↔
    q ∈ paths ∧ looksAbsolute q.toList = true ∧ fileName q.toList ≠ none := by
  rw [importsOf, List.mem_filter, Bool.and_eq_true, Option.isSome_iff_ne_none]

theorem importsOf_sublist (p : String) (paths : List String) :
    (importsOf paths).Sublist (importsOf (p :: paths)) :=
  (List.sublist_cons_self p paths).filter _

/-- The first path of a drop: what came of it, where its import has written, and the drop of
the rest. -/
theorem dropOutcomes_cons
    (h : dropOutcomes listing syncRoot depth (p :: paths) fs = some (outcomes, fs')) :
    ∃ r rest fs₁, outcomes = (p, r) :: rest ∧
      dropOutcomes listing syncRoot depth paths fs₁ = some (rest, fs') ∧
      FileSystem.Edits {l | p ∈ importsOf (p :: paths) ∧ destination fs syncRoot p <+: l} fs fs₁ ∧
      (looksAbsolute p.toList = true ∧
          uploadLocalFile listing syncRoot p depth fs = some (r, fs₁) ∨
        looksAbsolute p.toList = false ∧ r = .ok [p] ∧ fs₁ = fs) := by
  unfold dropOutcomes at h
  split at h
  · next habs =>
    split at h
    · exact absurd h (by simp)
    next r fs₁ hrun =>
    obtain ⟨⟨rest, fs₂⟩, hrest, heq⟩ := Option.map_eq_some_iff.mp h
    obtain ⟨hout, rfl⟩ := Prod.mk.inj heq
    refine ⟨r, rest, fs₁, hout.symm, hrest, ?_, .inl ⟨habs, hrun⟩⟩
    exact (uploadLocalFile_edits hrun).mono fun l hl =>
      ⟨mem_importsOf.mpr ⟨List.mem_cons_self, habs, hl.1⟩, hl.2⟩
  · next habs =>
    obtain ⟨⟨rest, fs₂⟩, hrest, heq⟩ := Option.map_eq_some_iff.mp h
    obtain ⟨hout, rfl⟩ := Prod.mk.inj heq
    exact ⟨.ok [p], rest, fs, hout.symm, hrest, .refl, .inr ⟨by simpa using habs, rfl, rfl⟩⟩

/-- There is an outcome for each path, in order. -/
theorem map_fst_dropOutcomes (paths : List String) : ∀ {fs : FileSystem}
    {outcomes : List (String × Except String (List String))},
    dropOutcomes listing syncRoot depth paths fs = some (outcomes, fs') →
      outcomes.map Prod.fst = paths := by
  induction paths with
  | nil =>
    intro fs outcomes hrun
    obtain ⟨rfl, -⟩ := Prod.mk.inj (Option.some.inj hrun)
    rfl
  | cons p paths ih =>
    intro fs outcomes hrun
    obtain ⟨r, rest, fs₁, rfl, hrest, -, -⟩ := dropOutcomes_cons hrun
    rw [List.map_cons, ih hrest]

/-- **A drop writes below its copies.** -/
theorem dropOutcomes_edits (paths : List String) : ∀ {fs : FileSystem}
    {outcomes : List (String × Except String (List String))},
    dropOutcomes listing syncRoot depth paths fs = some (outcomes, fs') →
      FileSystem.Edits {l | ∃ p ∈ importsOf paths, destination fs syncRoot p <+: l} fs fs' := by
  induction paths with
  | nil =>
    intro fs outcomes hrun
    obtain ⟨-, rfl⟩ := Prod.mk.inj (Option.some.inj hrun)
    exact .refl
  | cons p paths ih =>
    intro fs outcomes hrun
    obtain ⟨r, rest, fs₁, -, hrest, hedits, -⟩ := dropOutcomes_cons hrun
    have hfirst : FileSystem.Edits
        {l | ∃ q ∈ importsOf (p :: paths), destination fs syncRoot q <+: l} fs fs₁ :=
      hedits.mono fun l hl => ⟨p, hl.1, hl.2⟩
    refine hfirst.trans ((ih hrest).mono ?_)
    rintro l ⟨q, hq, hl⟩
    rw [destination_congr hedits.os] at hl
    exact ⟨q, (importsOf_sublist p paths).subset hq, hl⟩

/-- **A failed import does no harm.** Whatever comes of the others, an import that succeeds
has copied the files of its pick, and they are still there when the drop is done. -/
theorem dropOutcomes_arrived (paths : List String) : ∀ {fs : FileSystem}
    {outcomes : List (String × Except String (List String))}, fs.Tree →
    (∀ p ∈ importsOf paths, (StdFs.plain listing).Visible fs p.toList) →
      Separate fs syncRoot (importsOf paths) →
      dropOutcomes listing syncRoot depth paths fs = some (outcomes, fs') →
        ∀ pick rel, looksAbsolute pick.toList = true → (pick, .ok rel) ∈ outcomes →
          FileName (pickName pick) ∧ ∀ q c, PickedFile fs pick q c →
            relPath (pickName pick) q ∈ rel ∧
              fs'.fileAt (destination fs syncRoot pick ++ q) = some c := by
  induction paths with
  | nil =>
    intro fs outcomes _ _ _ hrun pick rel _ hmem
    obtain ⟨rfl, -⟩ := Prod.mk.inj (Option.some.inj hrun)
    exact absurd hmem List.not_mem_nil
  | cons p paths ih =>
    intro fs outcomes htree hvisible hsep hrun pick rel habs hmem
    obtain ⟨r, rest, fs₁, rfl, hrest, hedits₁, hfirst⟩ := dropOutcomes_cons hrun
    obtain heq | hmem := List.mem_cons.mp hmem
    · -- the first path: what the rest of the drop writes is beside its copy
      obtain ⟨rfl, rfl⟩ := Prod.mk.inj heq
      -- a pick is absolute, so it was imported and not handed on as it is
      obtain ⟨-, hupload⟩ | ⟨hrel, -⟩ := hfirst
      swap
      · exact absurd (habs.symm.trans hrel) (by simp)
      have hname : fileName pick.toList ≠ none := by
        rw [fileName_of_import hupload]
        simp
      have hpick : pick ∈ importsOf (pick :: paths) :=
        mem_importsOf.mpr ⟨List.mem_cons_self, habs, hname⟩
      have harrived := uploadLocalFile_arrived htree (hvisible pick hpick)
        (hsep.sources pick hpick pick hpick) hupload
      -- the pick is an import itself, the first of those that are apart
      have hcopies := hsep.copies
      rw [importsOf, List.filter_cons_of_pos
        (by simp [habs, Option.isSome_iff_ne_none, hname])] at hcopies
      refine ⟨harrived.named pick List.mem_cons_self, fun q c hfile =>
        ⟨harrived.listed pick List.mem_cons_self q c hfile, ?_⟩⟩
      rw [(dropOutcomes_edits paths hrest).filesAgree.fileAt ?_]
      · exact harrived.copied pick List.mem_cons_self q c hfile
      · rintro ⟨p', hp', hl⟩
        rw [destination_congr harrived.os] at hl
        exact ((List.pairwise_cons.mp hcopies).1 p' hp').symm.below q hl
    · -- a later one: its source and its conditions are as they were
      have hsame : ∀ {p'}, p' ∈ importsOf (p :: paths) → ∀ {q c},
          PickedFile fs₁ p' q c ↔ PickedFile fs p' q c := by
        intro p' hp' q c
        refine pickedFile_congr hedits₁.os fun q => hedits₁.filesAgree.fileAt ?_
        rintro ⟨hp, hl⟩
        exact (hsep.sources p hp p' hp').below q hl
      have hsub := importsOf_sublist p paths
      obtain ⟨hname, hcopied⟩ := ih (hedits₁.tree htree) (fun p' hp' q c hfile =>
        ((StdFs.plain listing).seen_congr hedits₁.os).mpr
          (hvisible p' (hsub.subset hp') q c ((hsame (hsub.subset hp')).mp hfile)))
        (hsep.sublist hsub hedits₁.os) hrest pick rel habs hmem
      -- it has an outcome, so it was dropped, and a name, so it was imported
      have hpick : pick ∈ importsOf (p :: paths) := by
        refine hsub.subset (mem_importsOf.mpr ⟨?_, habs, fun hnone => hname.1.1 ?_⟩)
        · rw [← map_fst_dropOutcomes paths hrest]
          exact List.mem_map_of_mem hmem
        · rw [pickName, hnone, Option.getD_none]
      refine ⟨hname, fun q c hfile => ?_⟩
      rw [← destination_congr hedits₁.os]
      exact hcopied q c ((hsame hpick).mpr hfile)

end Drops

section Whole

variable {env : Env} {cl : TcpClient} {client : InstalledClient} {text : ClientError → String}
  {b : UInt32} {app : App} {files : List SyncFile} {srv : Server} {listing : Listing} {depth : ℕ}
  {paths rels : List String} {disk disk' : FileSystem}

/-- **What is dropped comes to the server**, but for the paths whose import fails, on a disk
without symbolic and hard links. Each dropped path has an outcome. In every interleaving the
queue ends with a complete job for each path that is handed on, and the server has every file of
every pick whose import has succeeded, as it was on the user's disk. -/
theorem dropped_files_arrive
    (hdrop : handleFilesDropped listing cl.fileOps.syncRoot depth true paths disk =
      some (some rels, disk'))
    (htree : disk.Tree)
    (hvisible : ∀ p ∈ importsOf paths, (StdFs.plain listing).Visible disk p.toList)
    (hseparate : Separate disk cl.fileOps.syncRoot (importsOf paths))
    (hpaths : files.map (fun f => f.path) = rels) (hdisk : ∀ f ∈ files, f.disk = disk')
    (hpaired : Paired cl b) (hrest : Resting b (Link.start srv))
    (hsendable : QueueSendable env cl b files srv.fs) (hsyncing : app.syncing = false)
    (harrives : ∀ f ∈ files, f.Arrives b) :
    ∃ outcomes, dropOutcomes listing cl.fileOps.syncRoot depth paths disk =
        some (outcomes, disk') ∧ outcomes.map Prod.fst = paths ∧
      ∀ cfg, SyncAllReach env cl client text app files srv cfg →
        Terminal (machine env) Sent.view cfg →
          ∃ app', cfg.client = .ret app' ∧
            (newJobs app app').map TransferJob.relativePath = handedOn outcomes ∧
            (∀ j ∈ newJobs app app', j.status = .complete) ∧
            ∀ pick rel, looksAbsolute pick.toList = true → (pick, .ok rel) ∈ outcomes →
              ∀ q c, PickedFile disk pick q c →
                ∃ f ∈ files, f.path = relPath (pickName pick) q ∧
                  cfg.link.server.fs.node (cfg.link.server.fs.locate f.target) =
                    some (.file c) := by
  obtain ⟨outcomes, hrun, hhanded⟩ : ∃ outcomes,
      dropOutcomes listing cl.fileOps.syncRoot depth paths disk = some (outcomes, disk') ∧
        handedOn outcomes = rels := by
    unfold handleFilesDropped at hdrop
    rw [importDropped_eq, Option.map_map] at hdrop
    obtain ⟨⟨outcomes, fs₁⟩, hrun, heq⟩ := Option.map_eq_some_iff.mp hdrop
    obtain ⟨hrels, rfl⟩ := Prod.mk.inj heq
    exact ⟨outcomes, hrun, Option.some.inj hrels⟩
  have hos := (dropOutcomes_edits paths hrun).os
  refine ⟨outcomes, hrun, map_fst_dropOutcomes paths hrun, fun cfg hreach hterm => ?_⟩
  obtain ⟨app', hret, hjobs, hcomplete, hstored⟩ :=
    queueDelivers_of_arrives hpaired hrest hsendable.toQueueReady hsyncing harrives cfg hreach hterm
  refine ⟨app', hret, hjobs.trans (hpaths.trans hhanded.symm), hcomplete, ?_⟩
  intro pick rel habs hmem q c hfile
  obtain ⟨hname, hcopied⟩ :=
    dropOutcomes_arrived paths htree hvisible hseparate hrun pick rel habs hmem
  obtain ⟨hlisted, hcopy⟩ := hcopied q c hfile
  -- what an import lists is handed on
  have hqueued : relPath (pickName pick) q ∈ files.map fun f => f.path := by
    rw [hpaths, ← hhanded]
    exact List.mem_flatMap.mpr ⟨_, hmem, hlisted⟩
  obtain ⟨f, hf, hpath⟩ := List.mem_map.mp hqueued
  have hcontent := content_of_copied hos hname hfile hcopy (hdisk f hf) hpath
    (hsendable.known f hf).readable
  exact ⟨f, hf, hpath, hcontent ▸ hstored f hf⟩

end Whole

/-- A file is dropped after a path without a name, whose import fails. -/
theorem dropped_files_arrive_one : ∃ cfg app',
    SyncAllReach storageEnv (sampleClient 4096) ⟨0, "a:9000", 4096, "c"⟩ (fun _ => "error")
      ⟨[], [], false⟩ [importedFile]
      ((Server.new 4096 (FileSystem.single ['s'] ['f'] none)).setState .ready) cfg ∧
    cfg.client = .ret app' ∧ app'.transfers.map TransferJob.relativePath = ["f"] ∧
      cfg.link.server.fs.node (cfg.link.server.fs.locate "s/f".toList) = some (.file [1]) := by
  have hdrop : handleFilesDropped (.first fun _ => none) "c" 1 true ["/", "/d/f"]
      (FileSystem.single ['d'] ['f'] (some [1])) = some (some ["f"], importedDisk) := rfl
  have himports : importsOf ["/", "/d/f"] = ["/d/f"] := by decide
  have hvisible : ∀ p ∈ importsOf ["/", "/d/f"],
      (StdFs.plain (.first fun _ => none)).Visible (.single ['d'] ['f'] (some [1])) p.toList :=
    fun _ _ _ _ _ _ _ => rfl
  have hseparate : Separate (FileSystem.single ['d'] ['f'] (some [1])) "c"
      (importsOf ["/", "/d/f"]) := by
    rw [himports]
    exact ⟨by decide, List.pairwise_singleton _ _⟩
  obtain ⟨cfg, hreach, hterm⟩ := exists_synced_imported
  obtain ⟨outcomes, hrun, -, harrive⟩ := @dropped_files_arrive storageEnv (sampleClient 4096)
    ⟨0, "a:9000", 4096, "c"⟩ (fun _ => "error") 4096 ⟨[], [], false⟩ [importedFile] _ _ _ _ _ _ _
    hdrop (FileSystem.tree_single _ (by decide) (by decide)) hvisible hseparate rfl
    (List.forall_mem_singleton.mpr rfl) paired_sample (resting_sample _) sendable_imported
    rfl (by simp [SyncFile.Arrives, importedFile, sampleFile])
  obtain ⟨app', hret, hjobs, -, hfiles⟩ := harrive cfg hreach hterm
  have hout : outcomes = [("/", .error "Invalid file path"), ("/d/f", .ok ["f"])] :=
    (Prod.mk.inj (Option.some.inj hrun)).1.symm
  rw [hout] at hjobs hfiles
  obtain ⟨f, hf, -, hnode⟩ :=
    hfiles "/d/f" ["f"] (by decide) (by simp) [] [1] ⟨by simp, rfl⟩
  rw [List.mem_singleton.mp hf] at hnode
  exact ⟨cfg, app', hreach, hret, hjobs, hnode⟩

end AdaptiveSync
