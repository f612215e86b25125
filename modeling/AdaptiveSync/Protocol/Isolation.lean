import AdaptiveSync.Protocol.Transfers
import AdaptiveSync.Server.DiskCalls

/-!
# Sessions that work on different files

Any number of sessions merge blocks and save uploads at the same time, each for paths of its
own, and their disk calls take turns in any order (`sessionPool`). The files of one session are
neither those of another nor above them (`Clear`), but they may have directories in common, and
sessions make these for each other.

What a session relies on is that the others only change the disk `Elsewhere`; what it promises
is that its own calls are `Changes` of its own files, which are elsewhere for all others. Under
this, every call does to a path what it does alone (`meets_workCalls`), and so does a session
(`meets_sessionCalls`). So each session ends as if it had been alone on the disk
(`concurrent_sessions_as_alone`).

The lock of a path is left out: no two sessions ask for the same one.
-/

namespace AdaptiveSync

open Fs Shared Blocks
open LexPath (cStr nul)

/-! ### What a path holds -/

/-- The file at a path and its scratch file. -/
structure Contents where
  file : Option Bytes
  scratch : Option Bytes

/-- The scratch file with the data of a block in it. -/
def Contents.merge (x : Contents) (c : BlockCall) : Bytes :=
  writeAt 0 (x.scratch.getD []) c.offset.toNat c.data

/-- On a disk of the system of `fs₀`, the path is placed and holds `x`. -/
structure View (fm : FileManager) (fs₀ : FileSystem) (p : String) (t : LexPath.Text)
    (x : Contents) (fs : FileSystem) : Prop extends fm.Placed fs p t where
  os : fs.os = fs₀.os
  file : fs.node (fs.locate (cStr t)) = x.file.map .file
  scratch : fs.node (fs.locate (cTmp t)) = x.scratch.map .file

/-- And the directory is there. -/
def Within (fm : FileManager) (fs₀ : FileSystem) (p : String) (t : LexPath.Text) (x : Contents)
    (fs : FileSystem) : Prop :=
  View fm fs₀ p t x fs ∧ fs.node (fs.cParent t) = some .dir

/-- The change is one of the two files of `t`, or of the directories above them. -/
def Changes (fs₀ : FileSystem) (t : LexPath.Text) (fs fs' : FileSystem) : Prop :=
  fs.Grows {fs₀.locate (cStr t), fs₀.locate (cTmp t)} {d | d <+: fs₀.cParent t} fs'

/-- The change is one of a text that keeps clear of `t`. -/
def Elsewhere (fs₀ : FileSystem) (t : LexPath.Text) (fs fs' : FileSystem) : Prop :=
  ∃ t', nul ∉ t' ∧ Clear fs₀ t' t ∧ Clear fs₀ t t' ∧ Changes fs₀ t' fs fs'

section View

variable {fm : FileManager} {fs₀ fs fs' : FileSystem} {p : String} {t : LexPath.Text}
  {x y : Contents}

/-- **What is done elsewhere** changes nothing here. -/
theorem View.elsewhere (h : View fm fs₀ p t x fs) (he : Elsewhere fs₀ t fs fs') :
    View fm fs₀ p t x fs' ∧
      (fs.node (fs.cParent t) = some .dir → fs'.node (fs'.cParent t) = some .dir) := by
  obtain ⟨t', hplain', hclear, hclear', hgrows⟩ := he
  have hloc : fs₀.locate = fs.locate := (FileSystem.locate_congr h.os).symm
  have hpar : fs₀.cParent = fs.cParent := (FileSystem.cParent_congr h.os).symm
  unfold Clear at hclear hclear'
  unfold Changes at hgrows
  rw [hloc] at hclear hclear' hgrows
  rw [hpar] at hgrows
  -- the files of the other text are not above those of this one
  have habove : ∀ l, l = fs.locate (cStr t') ∨ l = fs.locate (cTmp t') → ¬ l <+: fs.cParent t :=
    fun l hl hway => (hclear l hl).1 (prefix_locate h.plain h.leaf hway)
  have hsame : ∀ l, l = fs.locate (cStr t) ∨ l = fs.locate (cTmp t) →
      fs'.node l = fs.node l := by
    intro l hl
    have hout : ¬ (l = fs.locate (cStr t') ∨ l = fs.locate (cTmp t')) := by
      intro hc
      rcases hl with rfl | rfl
      · exact (hclear _ hc).1 (List.prefix_refl _)
      · exact (hclear _ hc).2 (List.prefix_refl _)
    refine (hgrows.node l hout).resolve_right fun ⟨hway, _⟩ => (hclear' l hl).2 ?_
    -- a directory that is made for the other text is above its scratch file
    exact prefix_locate_tmp hplain' hway
  have hfile := hsame _ (.inl rfl)
  have htmp := hsame _ (.inr rfl)
  have hloc' := FileSystem.locate_congr hgrows.os
  refine ⟨⟨h.toPlaced.grows hgrows habove (hfile ▸ h.not_dir) (htmp ▸ h.tmp_not_dir),
    hgrows.os.trans h.os, ?_, ?_⟩, fun hdir => ?_⟩
  · rw [hloc', hfile, h.file]
  · rw [hloc', htmp, h.scratch]
  · rw [FileSystem.cParent_congr hgrows.os]
    exact hgrows.dir (fun hc => habove _ hc (List.prefix_refl _)) hdir

/-- **What is done here.** -/
theorem View.own (h : View fm fs₀ p t x fs) (hchanges : Changes fs₀ t fs fs')
    (hfile : fs'.node (fs.locate (cStr t)) = y.file.map .file)
    (htmp : fs'.node (fs.locate (cTmp t)) = y.scratch.map .file) :
    View fm fs₀ p t y fs' ∧
      (fs.node (fs.cParent t) = some .dir → fs'.node (fs'.cParent t) = some .dir) := by
  have hnot_dir : ∀ o : Option Bytes, o.map Node.file ≠ some .dir := by
    intro o
    cases o <;> simp
  have hgrows := hchanges
  unfold Changes at hgrows
  rw [← FileSystem.locate_congr h.os, ← FileSystem.cParent_congr h.os] at hgrows
  have hloc := FileSystem.locate_congr hgrows.os
  refine ⟨⟨h.toPlaced.grows hgrows (fun l hl => locate_not_above h.plain h.leaf hl)
    (hfile ▸ hnot_dir _) (htmp ▸ hnot_dir _), hgrows.os.trans h.os, ?_, ?_⟩, fun hdir => ?_⟩
  · rw [hloc, hfile]
  · rw [hloc, htmp]
  · rw [FileSystem.cParent_congr hgrows.os]
    exact hgrows.dir (fun hc => locate_not_above h.plain h.leaf hc (List.prefix_refl _)) hdir

end View

/-- What the text holds on a disk. -/
def contentsOn (fs : FileSystem) (t : LexPath.Text) : Contents :=
  ⟨fs.fileAt (fs.locate (cStr t)), fs.fileAt (fs.locate (cTmp t))⟩

/-! ### The calls for a path, among those for others -/

section Calls

variable {sha256 : Bytes → String} {fm : FileManager} {fs₀ fs : FileSystem} {p : String}
  {t : LexPath.Text} {x : Contents} {R : FileSystem → FileSystem → Prop}

theorem stable_view (hR : ∀ s s', R s s' → Elsewhere fs₀ t s s') :
    Script.Stable R (View fm fs₀ p t x) :=
  fun s s' hview hstep => (hview.elsewhere (hR s s' hstep)).1

theorem stable_within (hR : ∀ s s', R s s' → Elsewhere fs₀ t s s') :
    Script.Stable R (Within fm fs₀ p t x) := by
  rintro s s' ⟨hview, hdir⟩ hstep
  obtain ⟨hview', hdir'⟩ := hview.elsewhere (hR s s' hstep)
  exact ⟨hview', hdir' hdir⟩

theorem Within.ready (h : Within fm fs₀ p t x fs) : fm.Ready fs p t :=
  h.1.toPlaced.ready h.2

/-- A scratch file is put in place, or changed. -/
theorem Within.set_scratch (h : Within fm fs₀ p t x fs) (b : Bytes) :
    Changes fs₀ t fs (fs.set (fs.locate (cTmp t)) (.file b)) ∧
      Within fm fs₀ p t ⟨x.file, some b⟩ (fs.set (fs.locate (cTmp t)) (.file b)) := by
  have hchanges : Changes fs₀ t fs (fs.set (fs.locate (cTmp t)) (.file b)) := by
    refine .set _ ?_
    rw [FileSystem.locate_congr h.1.os]
    exact .inr rfl
  obtain ⟨hview, hdir⟩ := h.1.own (y := ⟨x.file, some b⟩) hchanges
    ((FileSystem.node_set_of_ne (locate_cTmp_ne h.1.plain fs).symm).trans h.1.file)
    (FileSystem.node_set_self h.1.tmp_not_dir)
  exact ⟨hchanges, hview, hdir h.2⟩

/-- The scratch file takes the place of the file. -/
theorem Within.rename {b : Bytes} (h : Within fm fs₀ p t ⟨x.file, some b⟩ fs) :
    ∃ fs', fs.rename (cTmp t) (cStr t) = some fs' ∧ Changes fs₀ t fs fs' ∧
      Within fm fs₀ p t ⟨some b, none⟩ fs' := by
  have hready := h.ready
  refine ⟨(fs.remove (fs.locate (cTmp t))).set (fs.locate (cStr t)) (.file b), ?_, ?_⟩
  · rw [FileSystem.rename, hready.stat_tmp_of_file h.1.scratch]
    refine if_pos ⟨hready.nonempty, hready.leaf, ?_, hready.not_dir, hready.quiet .rename _⟩
    rw [← hready.parent_eq]
    exact hready.parent_dir
  · have hchanges : Changes fs₀ t fs
        ((fs.remove (fs.locate (cTmp t))).set (fs.locate (cStr t)) (.file b)) := by
      unfold Changes
      rw [← FileSystem.locate_congr h.1.os]
      exact (FileSystem.Grows.remove (.inr rfl)).trans (.set _ (.inl rfl))
    obtain ⟨hview, hdir⟩ := h.1.own (y := ⟨some b, none⟩) hchanges (hready.node_commit b)
      (hready.node_commit_tmp h.1.plain b)
    exact ⟨hchanges, hview, hdir h.2⟩

/-- A level above the file. -/
theorem View.mkdirCall (h : View fm fs₀ p t x fs) {d : Loc} (hd : d <+: fs.cParent t) :
    ∃ fs', mkdirCall d fs = (true, fs') ∧ Changes fs₀ t fs fs' ∧ View fm fs₀ p t x fs' ∧
      fs'.node d = some .dir := by
  obtain hdir | hnone := h.above d hd
  · exact ⟨fs, by rw [AdaptiveSync.mkdirCall, hdir], .refl _ _ _, h, hdir⟩
  · have hcall : AdaptiveSync.mkdirCall d fs = (true, fs.set d .dir) := by
      rw [AdaptiveSync.mkdirCall, hnone]
      simp [h.quiet .mkdir d]
    have hmade : (fs.set d .dir).node d = some .dir := FileSystem.node_set_self (by simp [hnone])
    have hchanges : Changes fs₀ t fs (fs.set d .dir) := by
      refine ⟨rfl, fun l _ => ?_⟩
      by_cases hl : l = d
      · subst hl
        rw [FileSystem.cParent_congr h.os] at hd
        exact .inr ⟨hd, hnone, hmade⟩
      · exact .inl (FileSystem.node_set_of_ne hl)
    -- neither of the two files is above itself
    have hne : ∀ l, l = fs.locate (cStr t) ∨ l = fs.locate (cTmp t) → l ≠ d :=
      fun l hl hc => locate_not_above h.plain h.leaf hl (hc ▸ hd)
    obtain ⟨hview, -⟩ := h.own (y := x) hchanges
      ((FileSystem.node_set_of_ne (hne _ (.inl rfl))).trans h.file)
      ((FileSystem.node_set_of_ne (hne _ (.inr rfl))).trans h.scratch)
    exact ⟨_, hcall, hchanges, hview, hmade⟩

/-- The levels below `done`. Others may have made them by then. -/
theorem meets_mkdirsBelowCalls (hR : ∀ s s', R s s' → Elsewhere fs₀ t s s')
    (ns : List LexPath.Name) : ∀ (done : Loc) (fs : FileSystem), done ++ ns = fs₀.cParent t →
      View fm fs₀ p t x fs → fs.node done = some .dir →
        (mkdirsBelowCalls done ns).Meets R (Changes fs₀ t)
          (fun _ s => Within fm fs₀ p t x s) fs := by
  induction ns with
  | nil =>
    intro done fs hway hview hdone
    rw [List.append_nil] at hway
    subst hway
    refine .ret (stable_within hR) ⟨hview, ?_⟩ fun _ h => h
    rwa [FileSystem.cParent_congr hview.os]
  | cons n ns ih =>
    intro done fs hway hview hdone
    have hnext : done ++ [n] ++ ns = fs₀.cParent t := (List.append_cons done n ns).symm.trans hway
    refine .lift_bind (stable_view hR) hview fun s hs => ?_
    -- the level is there, or this call makes it
    have habove : done ++ [n] <+: s.cParent t := by
      rw [FileSystem.cParent_congr hs.os, ← hnext]
      exact List.prefix_append _ _
    obtain ⟨s', hcall, hchanges, hview', hmade⟩ := hs.mkdirCall habove
    rw [hcall]
    exact ⟨hchanges, ih _ s' hnext hview' hmade⟩

/-- The directories are there in the end. -/
theorem meets_makeParentCalls (hR : ∀ s s', R s s' → Elsewhere fs₀ t s s')
    (hview : View fm fs₀ p t x fs) :
    (makeParentCalls t).Meets R (Changes fs₀ t) (fun _ s => Within fm fs₀ p t x s) fs := by
  refine .lift_bind (stable_view hR) hview fun s hs => ⟨.refl _ _ _, ?_⟩
  dsimp only
  split
  · next hdir =>
    refine .ret (stable_within hR) ⟨hs, ?_⟩ fun _ h => h
    simpa using hdir
  · rw [FileSystem.cParent_congr hs.os]
    exact meets_mkdirsBelowCalls hR _ [] s rfl hs (if_pos List.nil_prefix)

/-- The scratch file is open, and is there. -/
theorem meets_openTmpCalls (hR : ∀ s s', R s s' → Elsewhere fs₀ t s s')
    (hwithin : Within fm fs₀ p t x fs) :
    (openTmpCalls t).Meets R (Changes fs₀ t)
      (fun opened s => opened = true ∧ Within fm fs₀ p t ⟨x.file, some (x.scratch.getD [])⟩ s)
      fs := by
  -- whether it can be updated is whether it is there
  have hupdate : ∀ {x : Contents} s, Within fm fs₀ p t x s →
      s.openUpdate (cTmp t) = x.scratch.isSome := by
    intro x s hs
    rw [FileSystem.openUpdate, hs.ready.canOpenWrite_tmp, hs.1.scratch]
    simp
  refine .look_bind (stable_within hR) hwithin (.refl _ _) hupdate fun s hs => ?_
  cases hscratch : x.scratch with
  | some b =>
    refine .ret (stable_within hR) hs fun s hs => ⟨rfl, ?_⟩
    have hsame : (⟨x.file, some ((some b).getD [])⟩ : Contents) = x := by
      rw [Option.getD_some, ← hscratch]
    rwa [hsame]
  | none =>
    refine .attempt_bind (stable_within hR) hs fun s hs => ⟨_, ?_, hs.set_scratch [] |>.1, ?_⟩
    · rw [FileSystem.openTruncate, if_pos hs.ready.canOpenWrite_tmp]
    · -- it has just been created
      exact .call (stable_within hR) (hs.set_scratch []).2 fun s hs =>
        ⟨.refl _ _ _, .ret (stable_within hR) hs fun s' hs' => ⟨hupdate s hs, hs'⟩⟩

/-- The data is in the scratch file. -/
theorem meets_writeTmpCall (hR : ∀ s s', R s s' → Elsewhere fs₀ t s s') {b : Bytes}
    (data : Bytes) (off : ℕ) (hwithin : Within fm fs₀ p t ⟨x.file, some b⟩ fs)
    (hoff : off + data.length < maxOffset) :
    (Script.lift (writeTmpCall t off data)).Meets R (Changes fs₀ t)
      (fun ok s => ok = true ∧ Within fm fs₀ p t ⟨x.file, some (writeAt 0 b off data)⟩ s) fs := by
  refine .call (stable_within hR) hwithin fun s hs => ?_
  have hwrite : s.pwrite (cTmp t) off data =
      some (s.set (s.locate (cTmp t)) (.file (writeAt 0 b off data))) := by
    have hbytes : s.bytesAt (s.locate (cTmp t)) = b :=
      FileSystem.bytesAt_of_file hs.1.scratch
    rw [FileSystem.pwrite, hbytes, hs.1.quiet .write, if_neg]
    simp [hoff]
  simp only [writeTmpCall, hwrite]
  obtain ⟨hchanges, hs'⟩ := hs.set_scratch (writeAt 0 b off data)
  exact ⟨hchanges, .ret (stable_within hR) hs' fun s hs => ⟨rfl, hs⟩⟩

/-- **A block** is in the scratch file. -/
theorem meets_writeBlockCalls (hR : ∀ s s', R s s' → Elsewhere fs₀ t s s')
    (hview : View fm fs₀ p t x fs) {c : BlockCall}
    (hoff : c.offset.toNat + c.data.length < maxOffset) :
    (writeBlockCalls t c.offset c.data).Meets R (Changes fs₀ t)
      (fun ok s => ok = true ∧ Within fm fs₀ p t ⟨x.file, some (x.merge c)⟩ s) fs := by
  refine (meets_makeParentCalls hR hview).bind fun _ s hs => ?_
  -- the directories are there now, whoever has made them
  refine (meets_openTmpCalls hR hs).bind fun opened s hs => ?_
  rw [hs.1, if_pos rfl, if_neg (by omega)]
  exact meets_writeTmpCall hR _ _ hs.2 hoff

/-- The data of an upload is in the scratch file, and nothing else. -/
theorem meets_writeFileCalls (hR : ∀ s s', R s s' → Elsewhere fs₀ t s s')
    (hview : View fm fs₀ p t x fs) {data : Bytes} (hlen : data.length < maxOffset) :
    (writeFileCalls t data).Meets R (Changes fs₀ t)
      (fun ok s => ok = true ∧ Within fm fs₀ p t ⟨x.file, some data⟩ s) fs := by
  refine (meets_makeParentCalls hR hview).bind fun _ s hs => ?_
  refine .attempt_bind (stable_within hR) hs fun s hs => ⟨_, ?_, (hs.set_scratch []).1, ?_⟩
  · rw [FileSystem.openTruncate, if_pos hs.ready.canOpenWrite_tmp]
  · have hwrite := meets_writeTmpCall hR data 0 (hs.set_scratch []).2 (by omega)
    rwa [writeAt_zero_nil] at hwrite

/-- The scratch file has become the file. -/
theorem meets_renameTmpCalls (hR : ∀ s s', R s s' → Elsewhere fs₀ t s s') {b : Bytes}
    (hwithin : Within fm fs₀ p t ⟨x.file, some b⟩ fs) :
    (renameTmpCalls t).Meets R (Changes fs₀ t)
      (fun r s => r = .ok true ∧ Within fm fs₀ p t ⟨some b, none⟩ s) fs := by
  refine .look_bind (b := .ok true) (stable_within hR) hwithin (.refl _ _) (fun s hs => ?_)
    fun s hs => ?_
  · rw [existsOrThrow, cStr_append_tmpSuffix, hs.ready.stat_tmp_of_file hs.1.scratch]
  · refine .attempt_bind (stable_within hR) hs fun s hs => ?_
    obtain ⟨s', hrename, hchanges, hs'⟩ := hs.rename
    exact ⟨s', hrename, hchanges, .ret (stable_within hR) hs' fun s hs => ⟨rfl, hs⟩⟩

end Calls

/-! ### A piece of work -/

/-- What a piece of work makes of the contents of its path. -/
def Contents.after (sha256 : Bytes → String) (x : Contents) : Work → Contents
  | .block c =>
    if c.Matches sha256 then
      if c.final then ⟨some (x.merge c), none⟩ else ⟨x.file, some (x.merge c)⟩
    else x
  | .upload data => ⟨some data, none⟩

/-- And of the handler. -/
def DeltaSyncHandler.after (sha256 : Bytes → String) (h : DeltaSyncHandler) (p : String) :
    Work → DeltaSyncHandler
  | .block c =>
    if c.Matches sha256 then
      if c.final then (h.track p c.index).untrack p else h.track p c.index
    else h
  | .upload _ => h

/-- How it ends. -/
def Work.status (sha256 : Bytes → String) : Work → StatusCode
  | .block c => if c.Matches sha256 then .ok else .checksumMismatch
  | .upload _ => .ok

/-- It does not write past the last offset. -/
def Work.Fits (sha256 : Bytes → String) : Work → Prop
  | .block c => c.Matches sha256 → c.offset.toNat + c.data.length < maxOffset
  | .upload data => data.length < maxOffset

section Pieces

variable {sha256 : Bytes → String} {fm : FileManager} {fs₀ fs : FileSystem} {p : String}
  {t : LexPath.Text} {x : Contents} {R : FileSystem → FileSystem → Prop} {h : DeltaSyncHandler}

/-- **A final block** has put the file in place. -/
theorem meets_finalizeCalls (hR : ∀ s s', R s s' → Elsewhere fs₀ t s s') {b : Bytes}
    (hwithin : Within fm fs₀ p t ⟨x.file, some b⟩ fs) :
    (finalizeCalls h p t).Meets R (Changes fs₀ t)
      (fun r s => r = (.ok .ok, h.untrack p) ∧ View fm fs₀ p t ⟨some b, none⟩ s) fs := by
  refine .look_bind (stable_within hR) hwithin (.refl _ _)
    (fun s hs => hs.ready.openRead_tmp_of_file hs.1.scratch) fun s hs => ?_
  refine .look_bind (b := .ok b) (stable_within hR) hs (.refl _ _) (fun s hs => ?_) fun s hs => ?_
  · simp [FileManager.readToEnd, hs.1.quiet .read]
  · refine (meets_renameTmpCalls hR hs).bind fun r s hr => ?_
    rw [hr.1]
    exact .ret (stable_view hR) hr.2.1 fun s hs => ⟨rfl, hs⟩

/-- **A piece of work** ends as it does alone, and has done to its path what it does alone. -/
theorem meets_workCalls (hR : ∀ s s', R s s' → Elsewhere fs₀ t s s')
    (hview : View fm fs₀ p t x fs) {work : Work} (hfits : work.Fits sha256) :
    (workCalls sha256 fm h p work).Meets R (Changes fs₀ t)
      (fun r s => r = (.ok (work.status sha256), h.after sha256 p work) ∧
        View fm fs₀ p t (x.after sha256 work) s) fs := by
  cases work with
  | block c =>
    rw [workCalls, blockCalls]
    -- a block whose hash is wrong is refused before the disk is touched
    by_cases hmatch : c.Matches sha256
    swap
    · have hhash : sha256 c.data ≠ c.hash := hmatch
      rw [if_pos hhash]
      refine .ret (stable_view hR) hview fun s hs => ?_
      simp only [Work.status, DeltaSyncHandler.after, Contents.after, hmatch, if_false, true_and]
      exact hs
    have hhash : ¬ sha256 c.data ≠ c.hash := not_not_intro hmatch
    rw [if_neg hhash, hview.resolves]
    simp only [Work.status, DeltaSyncHandler.after, Contents.after, hmatch, if_true]
    refine (meets_writeBlockCalls hR hview (hfits hmatch)).bind fun ok s hs => ?_
    rw [hs.1, if_pos rfl]
    cases c.final with
    | true => exact meets_finalizeCalls hR hs.2
    | false => exact .ret (stable_view hR) hs.2.1 fun s hs => ⟨rfl, hs⟩
  | upload data =>
    have hsave : (saveUploadCalls fm p data).Meets R (Changes fs₀ t)
        (fun r s => r = .ok .ok ∧ View fm fs₀ p t ⟨some data, none⟩ s) fs := by
      rw [saveUploadCalls, hview.resolves]
      refine (meets_writeFileCalls hR hview hfits).bind fun ok s hs => ?_
      rw [hs.1, if_pos rfl]
      refine (meets_renameTmpCalls hR hs.2).bind fun r s hr => ?_
      rw [hr.1]
      exact .ret (stable_view hR) hr.2.1 fun s hs => ⟨rfl, hs⟩
    refine hsave.bind fun r s hr => ?_
    rw [hr.1]
    exact .ret (stable_view hR) hr.2 fun s hs => ⟨rfl, hs⟩

end Pieces

/-! ### A session -/

/-- The contents of all paths after the work of a session. -/
def contentsAfter (sha256 : Bytes → String) (x : String → Contents) :
    List (String × Work) → String → Contents
  | [] => x
  | (p, work) :: rest =>
    contentsAfter sha256 (Function.update x p ((x p).after sha256 work)) rest

/-- The handler after it. -/
def handlerAfter (sha256 : Bytes → String) (h : DeltaSyncHandler) :
    List (String × Work) → DeltaSyncHandler
  | [] => h
  | (p, work) :: rest => handlerAfter sha256 (h.after sha256 p work) rest

/-- How its pieces end. -/
def statuses (sha256 : Bytes → String) (works : List (String × Work)) :
    List (Except Crash StatusCode) :=
  works.map fun a => .ok (a.2.status sha256)

section Session

variable {sha256 : Bytes → String} {fm : FileManager} {fs₀ : FileSystem}
  {t : String → LexPath.Text} {P : Set String} {R : FileSystem → FileSystem → Prop}

theorem stable_views {x : String → Contents}
    (hR : ∀ s s', R s s' → ∀ p ∈ P, Elsewhere fs₀ (t p) s s') :
    Script.Stable R fun s => ∀ p ∈ P, View fm fs₀ p (t p) (x p) s :=
  fun s s' hs hstep p hp => ((hs p hp).elsewhere (hR s s' hstep p hp)).1

/-- **A session among others** that keep clear of its paths. -/
theorem meets_sessionCalls (hR : ∀ s s', R s s' → ∀ p ∈ P, Elsewhere fs₀ (t p) s s')
    (hclear : ∀ p ∈ P, ∀ q ∈ P, p ≠ q → Clear fs₀ (t p) (t q)) (works : List (String × Work))
    (hfits : ∀ a ∈ works, a.1 ∈ P ∧ a.2.Fits sha256) :
    ∀ (h : DeltaSyncHandler) (x : String → Contents) (fs : FileSystem),
      (∀ p ∈ P, View fm fs₀ p (t p) (x p) fs) →
        (sessionCalls sha256 fm h works).Meets R (fun s s' => ∃ p ∈ P, Changes fs₀ (t p) s s')
          (fun r s => r = (statuses sha256 works, handlerAfter sha256 h works) ∧
            ∀ p ∈ P, View fm fs₀ p (t p) (contentsAfter sha256 x works p) s) fs := by
  induction works with
  | nil => exact fun h x fs hviews => .ret (stable_views hR) hviews fun s hs => ⟨rfl, hs⟩
  | cons head rest ih =>
    obtain ⟨p, work⟩ := head
    intro h x fs hviews
    obtain ⟨hp, hfit⟩ := hfits (p, work) List.mem_cons_self
    -- the other paths of the session keep what they hold
    have hwork : (workCalls sha256 fm h p work).Meets R
        (fun s s' => ∃ p ∈ P, Changes fs₀ (t p) s s')
        (fun r s => (r = (.ok (work.status sha256), h.after sha256 p work) ∧
          View fm fs₀ p (t p) ((x p).after sha256 work) s) ∧
            ∀ q ∈ {q ∈ P | q ≠ p}, View fm fs₀ q (t q) (x q) s) fs := by
      have hmeets := meets_workCalls (h := h) (fun s s' hstep => hR s s' hstep p hp) (hviews p hp)
        hfit
      refine (hmeets.frame (stable_views fun s s' hstep q hq => hR s s' hstep q hq.1)
        (stable_views fun s s' hchanges q hq => ?_) fun q hq => hviews q hq.1).mono
        (fun _ _ hstep => hstep) (fun _ _ hchanges => ⟨p, hp, hchanges⟩) fun _ _ hQ => hQ
      exact ⟨t p, (hviews p hp).plain, hclear p hp q hq.1 (Ne.symm hq.2),
        hclear q hq.1 p hp hq.2, hchanges⟩
    refine hwork.bind fun r s hr => ?_
    obtain ⟨⟨rfl, hview⟩, hothers⟩ := hr
    have hnext : ∀ q ∈ P, View fm fs₀ q (t q)
        (Function.update x p ((x p).after sha256 work) q) s := by
      intro q hq
      by_cases hqp : q = p
      · subst hqp
        rwa [Function.update_self]
      · rw [Function.update_of_ne hqp]
        exact hothers q ⟨hq, hqp⟩
    refine (ih (fun a ha => hfits a (List.mem_cons_of_mem _ ha)) _ _ s hnext).bind fun r s hr => ?_
    obtain ⟨rfl, hviews'⟩ := hr
    exact .ret (stable_views hR) hviews' fun s hs => ⟨rfl, hs⟩

end Session

/-! ### Many sessions -/

/-- The paths of a session. -/
def pathsOf (works : List (String × Work)) : Set String := {p | ∃ a ∈ works, a.1 = p}

/-- The sessions begin on the disk. -/
def sessionPool {ι : Type} (sha256 : Bytes → String) (fm : FileManager) (fs : FileSystem)
    (handler : ι → DeltaSyncHandler) (works : ι → List (String × Work)) :
    Pool ι FileSystem (List (Except Crash StatusCode) × DeltaSyncHandler) :=
  ⟨fs, fun i => sessionCalls sha256 fm (handler i) (works i)⟩

section Many

variable {ι : Type} [DecidableEq ι] {sha256 : Bytes → String} {fm : FileManager}
  {fs : FileSystem} {t : String → LexPath.Text} {handler : ι → DeltaSyncHandler}
  {works : ι → List (String × Work)}

theorem view_contentsOn {p : String} {t : LexPath.Text} (h : fm.Placed fs p t) :
    View fm fs p t (contentsOn fs t) fs := by
  have hnode : ∀ l, fs.node l ≠ some .dir → fs.node l = (fs.fileAt l).map .file := by
    intro l hl
    unfold FileSystem.fileAt
    cases hn : fs.node l with
    | none => rfl
    | some n =>
      cases n with
      | file b => rfl
      | dir => exact absurd hn hl
  exact ⟨h, rfl, hnode _ h.not_dir, hnode _ h.tmp_not_dir⟩

/-- Changes of files in `S`, one after another. -/
theorem grows_of_changes {S : Set Loc} {C : FileSystem → FileSystem → Prop} {s s' : FileSystem}
    (hC : ∀ s s', C s s' → ∃ t, {fs.locate (cStr t), fs.locate (cTmp t)} ⊆ S ∧
      Changes fs t s s')
    (h : Relation.ReflTransGen C s s') : s.Grows S Set.univ s' := by
  induction h with
  | refl => exact .refl _ _ _
  | tail _ hstep ih =>
    obtain ⟨t, hS, hchanges⟩ := hC _ _ hstep
    exact ih.trans (hchanges.mono hS (Set.subset_univ _))

/-- What a session promises: to leave its paths and its handler as its work says. -/
def Promise (sha256 : Bytes → String) (fm : FileManager) (fs : FileSystem)
    (t : String → LexPath.Text) (h : DeltaSyncHandler) (works : List (String × Work))
    (r : List (Except Crash StatusCode) × DeltaSyncHandler) (s : FileSystem) : Prop :=
  r = (statuses sha256 works, handlerAfter sha256 h works) ∧
    ∀ p ∈ pathsOf works, View fm fs p (t p)
      (contentsAfter sha256 (fun p => contentsOn fs (t p)) works p) s

/-- Each session keeps its promise among others that keep clear of its paths. -/
theorem meets_session {works : List (String × Work)} (h : DeltaSyncHandler)
    (hplaced : ∀ a ∈ works, fm.Placed fs a.1 (t a.1) ∧ a.2.Fits sha256)
    (hclear : ∀ a ∈ works, ∀ b ∈ works, a.1 ≠ b.1 → Clear fs (t a.1) (t b.1)) :
    (sessionCalls sha256 fm h works).Meets
      (fun s s' => ∀ p ∈ pathsOf works, Elsewhere fs (t p) s s')
      (fun s s' => ∃ p ∈ pathsOf works, Changes fs (t p) s s')
      (Promise sha256 fm fs t h works) fs := by
  refine meets_sessionCalls (P := pathsOf works) (fun s s' hstep => hstep) ?_ works
    (fun a ha => ⟨⟨a, ha, rfl⟩, (hplaced a ha).2⟩) h _ fs ?_
  · rintro p ⟨a, ha, rfl⟩ q ⟨b, hb, rfl⟩ hne
    exact hclear a ha b hb hne
  · rintro p ⟨a, ha, rfl⟩
    exact view_contentsOn (hplaced a ha).1

/-- A promise is kept in one way only. -/
theorem Promise.same {h : DeltaSyncHandler} {works : List (String × Work)}
    {r r' : List (Except Crash StatusCode) × DeltaSyncHandler} {s s' : FileSystem}
    (hp : Promise sha256 fm fs t h works r s) (hp' : Promise sha256 fm fs t h works r' s') :
    r = r' ∧ ∀ p ∈ pathsOf works,
      s.node (fs.locate (cStr (t p))) = s'.node (fs.locate (cStr (t p))) ∧
      s.node (fs.locate (cTmp (t p))) = s'.node (fs.locate (cTmp (t p))) := by
  refine ⟨hp.1.trans hp'.1.symm, fun p hmem => ?_⟩
  have hview := hp.2 p hmem
  have hview' := hp'.2 p hmem
  have hfile := hview.file.trans hview'.file.symm
  have hscratch := hview.scratch.trans hview'.scratch.symm
  rw [FileSystem.locate_congr hview.os, FileSystem.locate_congr hview'.os] at hfile hscratch
  exact ⟨hfile, hscratch⟩

/-- **Sessions that work on different files** at the same time, in any order of their disk
calls: each ends as it does alone on the disk, with the same handler, and has left the same
in the files of its paths and in their scratch files. No other file has changed. -/
theorem concurrent_sessions_as_alone
    (hplaced : ∀ i, ∀ a ∈ works i, fm.Placed fs a.1 (t a.1) ∧ a.2.Fits sha256)
    (hclear : ∀ i j, ∀ a ∈ works i, ∀ b ∈ works j, a.1 ≠ b.1 → Clear fs (t a.1) (t b.1))
    (hown : ∀ i j, i ≠ j → ∀ a ∈ works i, ∀ b ∈ works j, a.1 ≠ b.1)
    {w : Pool ι FileSystem (List (Except Crash StatusCode) × DeltaSyncHandler)}
    (hreach : Pool.Reach (sessionPool sha256 fm fs handler works) w) :
    (∀ i r, w.thread i = .ret r →
      let alone := (BlockStore.mk (handler i) fs).works sha256 fm (works i)
      r = (alone.1, alone.2.handler) ∧ ∀ p ∈ pathsOf (works i),
        w.state.node (fs.locate (cStr (t p))) = alone.2.fs.node (fs.locate (cStr (t p))) ∧
        w.state.node (fs.locate (cTmp (t p))) = alone.2.fs.node (fs.locate (cTmp (t p)))) ∧
      fs.FilesAgree {l | ∃ i, ∃ p ∈ pathsOf (works i), l ∈ footprint fm fs p} w.state := by
  have hmeets := fun i => meets_session (handler i) (hplaced i) (hclear i i)
  -- what one session does is elsewhere for the others
  have hrely : ∀ i j, i ≠ j → ∀ s s', (∃ p ∈ pathsOf (works i), Changes fs (t p) s s') →
      ∀ q ∈ pathsOf (works j), Elsewhere fs (t q) s s' := by
    rintro i j hij s s' ⟨p, ⟨a, ha, rfl⟩, hchanges⟩ q ⟨b, hb, rfl⟩
    have hne := hown i j hij a ha b hb
    exact ⟨t a.1, (hplaced i a ha).1.plain, hclear i j a ha b hb hne,
      hclear j i b hb a ha (Ne.symm hne), hchanges⟩
  constructor
  · intro i r hdone
    have halone := (hmeets i).run
    rw [run_sessionCalls (works i) ⟨handler i, fs⟩] at halone
    exact (Pool.returned hrely hmeets hreach hdone).same halone
  · have hinside : ∀ s s', (∃ i, ∃ p ∈ pathsOf (works i), Changes fs (t p) s s') →
        ∃ t', {fs.locate (cStr t'), fs.locate (cTmp t')} ⊆
          {l | ∃ i, ∃ p ∈ pathsOf (works i), l ∈ footprint fm fs p} ∧ Changes fs t' s s' := by
      rintro s s' ⟨i, p, ⟨a, ha, rfl⟩, hchanges⟩
      refine ⟨t a.1, fun l hl => ?_, hchanges⟩
      exact ⟨i, a.1, ⟨a, ha, rfl⟩, (hplaced i a ha).1.mem_footprint hl⟩
    exact (grows_of_changes hinside (Pool.changes_of_reach hrely hmeets hreach)).filesAgree

end Many

/-- A session for `f` and one for `g`. -/
def twoWorks (b : Bool) : List (String × Work) :=
  if b then [("f", .block ⟨0, 0, [1], sha256Hex [1], true⟩)] else [("g", .upload [2])]

/-- A block of `f` is merged while `g` is uploaded, on a disk without files. -/
theorem concurrent_sessions_as_alone_two :
    let fs := FileSystem.single ['s'] ['f'] none
    let alone := BlockStore.works sha256Hex ⟨"s", by decide⟩ ⟨.new 4096, fs⟩ (twoWorks true)
    ∃ w r r', Pool.Reach
        (sessionPool sha256Hex ⟨"s", by decide⟩ fs (fun _ : Bool => .new 4096) twoWorks) w ∧
      w.thread false = .ret r ∧ w.thread true = .ret r' ∧ r' = (alone.1, alone.2.handler) := by
  intro fs alone
  have hnode : ∀ l, fs.node l = some .dir ∨ fs.node l = none := by
    intro l
    rw [FileSystem.node_single]
    simp only [Option.map_none]
    split
    · exact .inl rfl
    · split <;> simp
  have hf : (FileManager.mk "s").Ready fs "f" "s/f".toList :=
    .of_single (by decide) (by decide) (by decide) rfl rfl rfl
  have hg : (FileManager.mk "s").Ready fs "g" "s/g".toList :=
    .of_single (by decide) (by decide) (by decide) rfl rfl rfl
  have hfg : Clear fs "s/f".toList "s/g".toList := by
    rintro l (rfl | rfl) <;> decide
  have hgf : Clear fs "s/g".toList "s/f".toList := by
    rintro l (rfl | rfl) <;> decide
  have hpath : ∀ i, ∀ a ∈ twoWorks i, a.1 = if i then "f" else "g" := by
    rintro (_ | _) a ha <;> rw [List.mem_singleton.mp ha] <;> rfl
  obtain ⟨w, r, r', hreach, hr, hr'⟩ := Pool.exists_returned (i := false) (j := true) (by decide)
    (sessionPool sha256Hex ⟨"s", by decide⟩ fs (fun _ : Bool => .new 4096) twoWorks)
  have hresult := @concurrent_sessions_as_alone Bool _ sha256Hex ⟨"s", by decide⟩ fs
    (fun p => if p = "f" then "s/f".toList else "s/g".toList) (fun _ => .new 4096) twoWorks ?_ ?_ ?_
    w hreach
  · have hsame := (hresult.1 true r' hr').1
    exact ⟨w, r, r', hreach, hr, hr', by rw [hsame]⟩
  · have hshort : 1 < maxOffset := by decide
    rintro (_ | _) a ha
    · obtain rfl := List.mem_singleton.mp ha
      exact ⟨hg.placed (by decide) fun d _ => hnode d, hshort⟩
    · obtain rfl := List.mem_singleton.mp ha
      exact ⟨hf.placed (by decide) fun d _ => hnode d, fun _ => hshort⟩
  · intro i j a ha b hb hne
    rw [hpath i a ha, hpath j b hb] at hne ⊢
    cases i <;> cases j
    · exact absurd rfl hne
    · exact hgf
    · exact hfg
    · exact absurd rfl hne
  · intro i j hij a ha b hb
    rw [hpath i a ha, hpath j b hb]
    revert hij
    cases i <;> cases j <;> decide

end AdaptiveSync
