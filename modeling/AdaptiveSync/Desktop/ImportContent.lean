import AdaptiveSync.Desktop.Import
import AdaptiveSync.Lib.Copies

/-!
# What an import does to files

An import that succeeds has copied files one after another: those of the source that could be
looked up, and perhaps some that it has made there itself. What comes of that is a question
about copies between places, where the items are the names that lead to the files below the
source (`importPlan`). Through links, the source of one copy may be the destination of another,
and two copies may have one destination.

* `copyRecursive_ran`: a call has copied the files it covers, each once, and lists them (`Ran`).
* `import_damages_nothing`: the files of the source are damaged when copies come to lie on them
  or on other copies; and what cannot be looked up is not copied.
* `imported_depends_on_order`: where copies of copies come to lie on files, the order of the
  entries decides.
-/

namespace AdaptiveSync

open Fs LexPath Relation

/-! ### The files of the source -/

/-- The path of a copied file below the sync root. -/
def relPath (name : Name) (q : List Name) : String := String.ofList (['/'].intercalate (name :: q))

namespace StdFs

variable (std : StdFs) (fs fs' : FileSystem)

/-- What stands under a text. -/
def found (t : Text) : Option Node := fs.found (std.real fs t)

/-- Where a text leads. -/
def place (t : Text) : Loc := fs.locate (std.real fs t)

/-- A file at the source or below it, by the names that lead to it. -/
def SourceFile (src : Text) (q : List Name) (c : List UInt8) : Prop :=
  (∀ n ∈ q, FileName n) ∧ std.found fs (below src q) = some (.file c)

/-- Every file of the source is as it was, so is its copy, and it is listed once. -/
def Imported (src dst : Text) (name : Name) (results : List String) : Prop :=
  ∀ q c, std.SourceFile fs src q c →
    fs'.fileAt (std.place fs (below src q)) = some c ∧
      fs'.fileAt (std.place fs (below dst q)) = some c ∧ results.count (relPath name q) = 1

/-- The places from the source to the file can be looked up. -/
def Seen (src : Text) (q : List Name) : Prop :=
  ∀ p, p <+: q → fs.os.fails .stat (std.place fs (below src p)) = false

/-- The files of the source can be looked up. -/
def Visible (src : Text) : Prop := ∀ q c, std.SourceFile fs src q c → std.Seen fs src q

/-- The text of a file: it is not empty, and does not end like a directory. -/
def FileText (t : Text) : Prop := std.real fs t ≠ [] ∧ endsInDirectory (std.real fs t) = false

/-- Copies of the files of the source: those that can be looked up are copied. -/
def importPlan (src dst : Text) : Copies.Plan (List Name) Loc (List UInt8) where
  src q := std.place fs (below src q)
  dst q := std.place fs (below dst q)
  able q := (∀ n ∈ q, FileName n) ∧ std.Seen fs src q ∧ std.FileText fs (below src q)
  empty := []

/-- The names lead through directories to a file. -/
def Reached (src : Text) (q : List Name) : Prop :=
  (∀ p, p <+: q → p ≠ q → std.found fs (below src p) = some .dir) ∧
    ∃ c, std.found fs (below src q) = some (.file c)

variable {fs fs'}

theorem place_congr (hos : fs'.os = fs.os) : std.place fs' = std.place fs := by
  funext t
  rw [place, place, std.real_congr hos, FileSystem.locate_congr hos]

theorem seen_congr (hos : fs'.os = fs.os) {src : Text} {q : List Name} :
    std.Seen fs' src q ↔ std.Seen fs src q := by
  rw [Seen, Seen, std.place_congr hos, hos]

variable {std} {src : Text} {q : List Name}

theorem found_eq_file {t : Text} {c : List UInt8} : std.found fs t = some (.file c) ↔
    std.FileText fs t ∧ fs.fileAt (std.place fs t) = some c :=
  FileSystem.found_eq_file_iff

theorem found_eq_dir {t : Text} : std.found fs t = some .dir ↔
    std.real fs t ≠ [] ∧ fs.node (std.place fs t) = some .dir :=
  FileSystem.found_eq_dir_iff

/-- What is reached stays so while files stay files. -/
theorem Reached.of_edits (h : std.Reached fs src q) {S : Set Loc} (hedits : fs.Edits S fs')
    (hfile : ∀ l, fs.fileAt l ≠ none → fs'.fileAt l ≠ none) : std.Reached fs' src q := by
  obtain ⟨hdirs, c, hc⟩ := h
  have hplace := std.place_congr hedits.os
  have hreal := std.real_congr hedits.os
  refine ⟨fun p hp hne => ?_, ?_⟩
  · obtain ⟨htext, hnode⟩ := found_eq_dir.mp (hdirs p hp hne)
    exact found_eq_dir.mpr ⟨hreal ▸ htext, hplace ▸ hedits.dir hnode⟩
  · obtain ⟨htext, hnode⟩ := found_eq_file.mp hc
    obtain ⟨c', hc'⟩ := Option.ne_none_iff_exists'.mp (hfile _ (by rw [hnode]; simp))
    exact ⟨c', found_eq_file.mpr ⟨by rwa [FileText, hreal], hplace ▸ hc'⟩⟩

end StdFs

/-! ### Texts along the way -/

theorem stripPrefix_of_components {t base : Text} {ns : List Name}
    (h : components t = components base ++ ns) :
    stripPrefix t base = some (['/'].intercalate ns) := by
  unfold stripPrefix
  rw [h, if_pos (List.prefix_append _ _), List.drop_left]

/-- Different files have different paths. -/
theorem relPath_inj {name : Name} {q q' : List Name} (hname : FileName name)
    (hq : ∀ n ∈ q, FileName n) (hq' : ∀ n ∈ q', FileName n)
    (h : relPath name q = relPath name q') : q = q' := by
  have hnames : ∀ {r : List Name}, (∀ n ∈ r, FileName n) → ∀ n ∈ name :: r, '/' ∉ n := by
    intro r hr n hn
    obtain rfl | hn := List.mem_cons.mp hn
    · exact hname.2
    · exact (hr n hn).2
  have htext : ['/'].intercalate (name :: q) = ['/'].intercalate (name :: q') :=
    String.ofList_injective h
  have hsplit := congrArg (List.splitOn '/') htext
  rw [List.splitOn_intercalate _ (hnames hq) (by simp),
    List.splitOn_intercalate _ (hnames hq') (by simp)] at hsplit
  exact (List.cons.inj hsplit).2

theorem components_below {t : Text} {q : List Name} (hq : ∀ n ∈ q, FileName n) :
    components (below t q) = components t ++ q := by
  induction q using List.reverseRecOn with
  | nil => exact (List.append_nil _).symm
  | append_singleton q n ih =>
    rw [below_concat, components_append (hq n (by simp)), ih fun m hm => hq m (by simp [hm]),
      List.append_assoc]

/-! ### What a call has done -/

/-- A call that covers the names `B` has copied the files `qs`, in this order: all the files
it covers that were there and could be looked up are among them, and no file twice. The plan is
the one of the import that the call is part of. -/
structure Ran (std : StdFs) (fs₀ : FileSystem) (src₀ dst₀ : Text) (name : Name)
    (B : List Name → Prop) (fs fs' : FileSystem) (results : List String)
    (qs : List (List Name)) : Prop where
  edits : fs.Edits Set.univ fs'
  runs : (std.importPlan fs₀ src₀ dst₀).Runs fs.fileAt qs fs'.fileAt
  nodup : qs.Nodup
  within : ∀ q ∈ qs, B q
  complete : ∀ q, B q → (std.importPlan fs₀ src₀ dst₀).able q → std.Reached fs src₀ q → q ∈ qs
  results : results = qs.map (relPath name)

section Calls

variable {std : StdFs} {fs₀ fs fs' fs'' : FileSystem} {src₀ dst₀ src dst sr : Text}
  {name : Name} {B B' : List Name → Prop} {r : List Name} {results results' : List String}
  {qs qs' : List (List Name)}

namespace Ran

/-- Nothing was copied, and nothing was there to copy. -/
theorem nothing (h : ∀ q, B q → (std.importPlan fs₀ src₀ dst₀).able q →
    ¬ std.Reached fs src₀ q) : Ran std fs₀ src₀ dst₀ name B fs fs [] [] where
  edits := .refl
  runs := .nil _
  nodup := .nil
  within _ hq := absurd hq (by simp)
  complete q hB hable hreached := absurd hreached (h q hB hable)
  results := rfl

/-- One call after another, about other names. -/
theorem append (h : Ran std fs₀ src₀ dst₀ name B fs fs' results qs)
    (h' : Ran std fs₀ src₀ dst₀ name B' fs' fs'' results' qs') (hdisjoint : ∀ q, B q → ¬ B' q) :
    Ran std fs₀ src₀ dst₀ name (fun q => B q ∨ B' q) fs fs'' (results ++ results')
      (qs ++ qs') where
  edits := h.edits.trans h'.edits
  runs := h.runs.append h'.runs
  nodup := h.nodup.append h'.nodup fun q hq hq' => hdisjoint q (h.within q hq) (h'.within q hq')
  within q hq := (List.mem_append.mp hq).imp (h.within q) (h'.within q)
  complete q hB hable hreached := by
    obtain hB | hB := hB
    · exact List.mem_append_left _ (h.complete q hB hable hreached)
    · -- a file that is there stays until its turn comes, with whatever content
      exact List.mem_append_right _
        (h'.complete q hB hable (hreached.of_edits h.edits fun _ => h.runs.ne_none))
  results := by rw [h.results, h'.results, List.map_append]

/-- Directories that were made before do not matter. -/
theorem of_edits (h : Ran std fs₀ src₀ dst₀ name B fs' fs'' results qs)
    (hedits : fs.Edits ∅ fs') : Ran std fs₀ src₀ dst₀ name B fs fs'' results qs where
  edits := (hedits.mono fun _ hc => hc.elim).trans h.edits
  runs := hedits.fileAt_eq ▸ h.runs
  nodup := h.nodup
  within := h.within
  complete q hB hable hreached :=
    h.complete q hB hable (hreached.of_edits hedits fun _ hl => hedits.fileAt_eq ▸ hl)
  results := h.results

theorem congr (h : Ran std fs₀ src₀ dst₀ name B fs fs' results qs) (hB : ∀ q, B q ↔ B' q) :
    Ran std fs₀ src₀ dst₀ name B' fs fs' results qs :=
  (funext fun q => propext (hB q) : B = B') ▸ h

end Ran

/-! ### The branches of a call -/

/-- A file is copied. -/
theorem copySingle_ran {b : List UInt8} (hos : fs.os = fs₀.os) (hr : ∀ n ∈ r, FileName n)
    (hdst : components dst₀ = components sr ++ [name])
    (habove : ∀ p, p <+: r → p ≠ r → fs₀.os.fails .stat (std.place fs₀ (below src₀ p)) = false)
    (hstat : fs.stat (std.real fs (below src₀ r)) = .file b)
    (hrun : std.copySingle sr (below src₀ r) (below dst₀ r) fs = (.ok results, fs')) :
    Ran std fs₀ src₀ dst₀ name (fun q => r <+: q) fs fs' results [r] := by
  obtain ⟨made, b', rel, hmade, hstat', hopen, hrel, rfl, rfl⟩ := StdFs.copySingle_eq_ok hrun
  have hedits : fs.Edits ∅ made := hmade ▸ std.edits_createDirAll fs _
  have hfiles := hedits.fileAt_eq
  have hplace : ∀ t, made.locate (std.real fs t) = std.place fs₀ t := by
    intro t
    rw [FileSystem.locate_congr hedits.os]
    exact congrFun (std.place_congr hos) t
  obtain ⟨hseen, hfound⟩ := FileSystem.found_of_stat_file hstat
  obtain ⟨htext, -⟩ := FileSystem.found_eq_file_iff.mp hfound
  have hable : (std.importPlan fs₀ src₀ dst₀).able r := by
    refine ⟨hr, fun p hp => ?_, ?_⟩
    · by_cases hpr : p = r
      · -- the file itself was looked up
        rw [hpr, ← hplace, FileSystem.locate_congr hedits.os, ← hos]
        exact hseen
      · exact habove p hp hpr
    · rwa [StdFs.FileText, ← std.real_congr hos]
  rw [hplace, hplace]
  -- a file is put there, so the files are an update of what they were
  have hfree := FileSystem.node_ne_of_canOpenWrite hopen
  have hnode := FileSystem.node_of_stat hstat'
  rw [hplace] at hfree hnode
  constructor
  · refine (hedits.mono fun _ hc => hc.elim).trans ?_
    rw [← hplace]
    exact .set hopen (Set.mem_univ _) _
  · rw [FileSystem.fileAt_set hfree, hfiles]
    refine .cons hable ?_ (.nil _)
    rw [← hfiles]
    exact FileSystem.fileAt_eq_some_iff.mpr hnode
  · exact List.nodup_singleton r
  · intro q hq
    rw [List.mem_singleton.mp hq]
  · intro q hq _ hreached
    -- a file has nothing below it
    by_contra hne
    have hdir := hreached.1 r hq fun hc => hne (by rw [hc]; exact List.mem_singleton_self q)
    exact absurd (hfound.symm.trans hdir) (by simp)
  · rw [stripPrefix_of_components (by rw [components_below hr, hdst, List.append_assoc])] at hrel
    rw [← Option.some.inj hrel]
    rfl

/-- What is neither a file nor a folder, as far as can be seen, has no file to copy. -/
theorem not_reached_of_stat {q : List Name} (hos : fs.os = fs₀.os)
    (hdir : fs.stat (std.real fs (below src₀ r)) ≠ .dir)
    (hfile : ∀ b, fs.stat (std.real fs (below src₀ r)) ≠ .file b) (hq : r <+: q)
    (hable : (std.importPlan fs₀ src₀ dst₀).able q) : ¬ std.Reached fs src₀ q := by
  rintro ⟨hdirs, c, hc⟩
  have hseen : fs.os.fails .stat (fs.locate (std.real fs (below src₀ r))) = false := by
    have hplace := congrFun (std.place_congr hos) (below src₀ r)
    rw [hos, show fs.locate (std.real fs (below src₀ r)) = _ from hplace]
    exact hable.2.1 r hq
  by_cases hqr : r = q
  · exact hfile c (FileSystem.stat_of_found_file hseen (hqr ▸ hc))
  · exact hdir (FileSystem.stat_of_found_dir hseen (hdirs r hq hqr))

/-- The entries of a folder are copied. -/
theorem copyEntries_ran {copy : Text → Text → FileSystem → Option Copied}
    (hcopy : ∀ {fs fs' results n}, FileName n → fs.os = fs₀.os →
      copy (append src n) (append dst n) fs = some (.ok results, fs') →
        ∃ qs, Ran std fs₀ src₀ dst₀ name (fun q => r ++ [n] <+: q) fs fs' results qs)
    {entries : List (Except String Name)} (hnamed : ∀ n, .ok n ∈ entries → FileName n)
    (hnodup : (entries.filterMap Except.toOption).Nodup) :
    ∀ {fs fs' : FileSystem} {results : List String}, fs.os = fs₀.os →
      copyEntries copy src dst entries fs = some (.ok results, fs') →
        (∀ e, .error e ∉ entries) ∧
        ∃ qs, Ran std fs₀ src₀ dst₀ name (fun q => ∃ n, .ok n ∈ entries ∧ r ++ [n] <+: q) fs fs'
          results qs := by
  induction entries with
  | nil =>
    intro fs fs' results _ hrun
    obtain ⟨hresults, rfl⟩ := Prod.mk.inj (Option.some.inj hrun)
    obtain rfl := Except.ok.inj hresults
    refine ⟨by simp, [], .nothing fun q hB => ?_⟩
    obtain ⟨n, hn, -⟩ := hB
    exact absurd hn (by simp)
  | cons entry entries ih =>
    intro fs fs' results hos hrun
    cases entry with
    | error e => exact absurd (congrArg Prod.fst (Option.some.inj hrun)) (by simp)
    | ok n =>
      unfold copyEntries at hrun
      split at hrun
      · exact absurd hrun (by simp)
      · exact absurd (congrArg Prod.fst (Option.some.inj hrun)) (by simp)
      next sub fs₁ hfirst =>
      split at hrun
      · exact absurd hrun (by simp)
      · exact absurd (congrArg Prod.fst (Option.some.inj hrun)) (by simp)
      next rest fs₂ hloop =>
      obtain ⟨hresults, rfl⟩ := Prod.mk.inj (Option.some.inj hrun)
      obtain rfl := Except.ok.inj hresults
      rw [List.filterMap_cons] at hnodup
      obtain ⟨hfresh, hnodup'⟩ := List.nodup_cons.mp hnodup
      obtain ⟨qs, hran⟩ := hcopy (hnamed n List.mem_cons_self) hos hfirst
      obtain ⟨hnone, qs', hran'⟩ := ih (fun m hm => hnamed m (List.mem_cons_of_mem _ hm)) hnodup'
        (hran.edits.os.trans hos) hloop
      have hboth := hran.append hran' fun q hq ⟨m, hm, hq'⟩ => by
        -- what is below two entries of one name is below one entry
        have heq := List.prefix_of_prefix_length_le hq hq' (by simp)
        have hnm : n = m := by simpa using heq
        exact hfresh (List.mem_filterMap.mpr ⟨.ok m, hm, by rw [hnm]; rfl⟩)
      refine ⟨?_, _, hboth.congr fun q => ?_⟩
      · intro e he
        obtain he | he := List.mem_cons.mp he
        · exact absurd he (by simp)
        · exact hnone e he
      · constructor
        · rintro (hq | ⟨m, hm, hq⟩)
          · exact ⟨n, List.mem_cons_self, hq⟩
          · exact ⟨m, List.mem_cons_of_mem _ hm, hq⟩
        · rintro ⟨m, hm, hq⟩
          obtain hm | hm := List.mem_cons.mp hm
          · exact .inl (Except.ok.inj hm ▸ hq)
          · exact .inr ⟨m, hm, hq⟩

/-- What is reached below a folder is below an entry of it, and all entries are listed. -/
theorem Ran.of_entries {made : FileSystem}
    (h : Ran std fs₀ src₀ dst₀ name
      (fun q => ∃ n, .ok n ∈ std.readDir.entries made (below src₀ r) ∧ r ++ [n] <+: q) made fs'
      results qs)
    (hnone : ∀ e, .error e ∉ std.readDir.entries made (below src₀ r)) (hedits : fs.Edits ∅ made)
    (hdir : std.found fs (below src₀ r) = some .dir) :
    Ran std fs₀ src₀ dst₀ name (fun q => r <+: q) fs fs' results qs where
  edits := (h.of_edits hedits).edits
  runs := (h.of_edits hedits).runs
  nodup := h.nodup
  within q hq := by
    obtain ⟨n, -, hq⟩ := h.within q hq
    exact (List.prefix_append r [n]).trans hq
  complete q hq hable hreached := by
    have hreached' := hreached.of_edits hedits fun _ hl => hedits.fileAt_eq ▸ hl
    obtain ⟨x, rfl⟩ := hq
    cases x with
    | nil =>
      -- the folder itself is no file
      obtain ⟨-, c, hc⟩ := hreached
      rw [List.append_nil] at hc
      exact absurd (hdir.symm.trans hc) (by simp)
    | cons n x =>
      have hbegin : r ++ [n] <+: r ++ n :: x := ⟨x, (List.append_cons _ _ _).symm⟩
      have hentry : std.found made (LexPath.append (below src₀ r) n) ≠ none := by
        rw [← below_concat]
        by_cases hx : r ++ [n] = r ++ n :: x
        · obtain ⟨-, c, hc⟩ := hreached'
          rw [hx, hc]
          simp
        · rw [hreached'.1 _ hbegin hx]
          simp
      exact h.complete _ ⟨n, std.readDir.complete _ _ hnone n (hable.1 n (by simp)) hentry,
        hbegin⟩ hable hreached'
  results := h.results

/-- **A call that succeeds has copied the files it covers.** -/
theorem copyRecursive_ran (hdst : components dst₀ = components sr ++ [name]) (depth : ℕ) :
    ∀ {fs fs' : FileSystem} {r : List Name} {results : List String}, fs.os = fs₀.os →
      (∀ n ∈ r, FileName n) →
      (∀ p, p <+: r → p ≠ r → fs₀.os.fails .stat (std.place fs₀ (below src₀ p)) = false) →
      std.copyRecursive sr depth (below src₀ r) (below dst₀ r) fs = some (.ok results, fs') →
        ∃ qs, Ran std fs₀ src₀ dst₀ name (fun q => r <+: q) fs fs' results qs := by
  induction depth with
  | zero =>
    intro fs fs' r results _ _ _ hrun
    exact absurd hrun (by simp [StdFs.copyRecursive])
  | succ depth ih =>
    intro fs fs' r results hos hr habove hrun
    by_cases hstat : fs.stat (std.real fs (below src₀ r)) = .dir
    · obtain ⟨hseen, hdir⟩ := FileSystem.found_of_stat_dir hstat
      -- a call that succeeds has come to the loop
      obtain ⟨-, -, heq⟩ | ⟨-, e, heq⟩ :=
        std.copyRecursive_dir sr depth (below dst₀ r) hstat rfl
      swap
      · rw [heq] at hrun
        exact absurd (congrArg Prod.fst (Option.some.inj hrun)) (by simp)
      rw [heq] at hrun
      have hedits := std.edits_createDirAll fs (below dst₀ r)
      -- the entries lie below places that were looked up
      have hbelow : ∀ n p, p <+: r ++ [n] → p ≠ r ++ [n] →
          fs₀.os.fails .stat (std.place fs₀ (below src₀ p)) = false := by
        intro n p hp hne
        have hpr : p <+: r := by
          obtain hp | hp := List.prefix_concat_iff.mp hp
          · exact absurd hp hne
          · exact hp
        by_cases heq : p = r
        · rw [heq, ← std.place_congr hos, ← hos]
          exact hseen
        · exact habove p hpr heq
      have hcopy : ∀ {fs₁ fs₂ results n}, FileName n → fs₁.os = fs₀.os →
          std.copyRecursive sr depth (append (below src₀ r) n) (append (below dst₀ r) n) fs₁ =
            some (.ok results, fs₂) →
          ∃ qs, Ran std fs₀ src₀ dst₀ name (fun q => r ++ [n] <+: q) fs₁ fs₂ results qs := by
        intro fs₁ fs₂ results n hn hos₁ hcall
        rw [← below_concat, ← below_concat] at hcall
        refine ih hos₁ (fun m hm => ?_) (hbelow n) hcall
        obtain hm | hm := List.mem_append.mp hm
        · exact hr m hm
        · rwa [List.mem_singleton.mp hm]
      -- `read_dir` has given no error, so no entry that was there is missing
      obtain ⟨hnone, qs, hran⟩ := copyEntries_ran hcopy (std.readDir.named _ _)
        (std.readDir.nodup _ _) (hedits.os.trans hos) hrun
      exact ⟨qs, hran.of_entries hnone hedits hdir⟩
    by_cases hfile : ∃ b, fs.stat (std.real fs (below src₀ r)) = .file b
    · obtain ⟨b, hfile⟩ := hfile
      rw [std.copyRecursive_file _ _ _ hfile] at hrun
      exact ⟨[r], copySingle_ran hos hr hdst habove hfile (Option.some.inj hrun)⟩
    · rw [not_exists] at hfile
      rw [std.copyRecursive_other _ _ _ hstat hfile] at hrun
      obtain ⟨hresults, rfl⟩ := Prod.mk.inj (Option.some.inj hrun)
      obtain rfl := Except.ok.inj hresults
      exact ⟨[], .nothing fun q => not_reached_of_stat hos hstat hfile⟩

theorem uploadLocalFile_ran {syncRoot absolutePath : String} {depth : ℕ}
    (hname : fileName absolutePath.toList = some name)
    (hrun : std.uploadLocalFile syncRoot absolutePath depth fs = some (.ok results, fs')) :
    ∃ qs, Ran std fs absolutePath.toList (append syncRoot.toList name) name (fun _ => True) fs fs'
      results qs := by
  unfold StdFs.uploadLocalFile at hrun
  simp only [hname] at hrun
  split at hrun
  · exact absurd (congrArg Prod.fst (Option.some.inj hrun)) (by simp)
  next made hmade =>
  have hedits := std.edits_createDirAll fs syncRoot.toList
  rw [hmade] at hedits
  obtain ⟨qs, hran⟩ := copyRecursive_ran (r := [])
    (components_append (fileName_of_eq_some hname)) depth hedits.os (by simp)
    (fun p hp hne => absurd (List.prefix_nil.mp hp) hne) hrun
  exact ⟨qs, (hran.of_edits hedits).congr fun q => iff_of_true List.nil_prefix trivial⟩

end Calls

/-! ### What an import damages -/

section Import

variable {std : StdFs} {fs fs' : FileSystem} {src dst : Text} {name : Name} {B : List Name → Prop}
  {results : List String} {qs : List (List Name)} {q : List Name} {c : List UInt8}

theorem Ran.count_eq_one (h : Ran std fs src dst name B fs fs' results qs) (hname : FileName name)
    (hq : q ∈ qs) : results.count (relPath name q) = 1 := by
  have hnames : ∀ {q}, q ∈ qs → ∀ n ∈ q, FileName n := fun hq => (h.runs.able_of_mem hq).1
  rw [h.results]
  apply List.count_eq_one_of_mem
  · exact h.nodup.map_on fun q₁ h₁ q₂ h₂ => relPath_inj hname (hnames h₁) (hnames h₂)
  · exact List.mem_map_of_mem hq

/-- What is listed was copied. -/
theorem Ran.mem_of_count (h : Ran std fs src dst name B fs fs' results qs) (hname : FileName name)
    (hq : ∀ n ∈ q, FileName n) (hcount : results.count (relPath name q) = 1) : q ∈ qs := by
  have hmem : relPath name q ∈ results := by
    rw [← List.count_pos_iff, hcount]
    exact Nat.one_pos
  rw [h.results] at hmem
  obtain ⟨q', hq', heq⟩ := List.mem_map.mp hmem
  rwa [← relPath_inj hname (h.runs.able_of_mem hq').1 hq heq]

/-- The files of the source that can be looked up are the ones that can be copied. -/
theorem StdFs.SourceFile.able (h : std.SourceFile fs src q c) (hseen : std.Seen fs src q) :
    (std.importPlan fs src dst).able q ∧
      fs.fileAt ((std.importPlan fs src dst).src q) = some c :=
  have hfile := StdFs.found_eq_file.mp h.2
  ⟨⟨h.1, hseen, hfile.1⟩, hfile.2⟩

/-- Where what is found is found in directories, the names of a file of the source lead through
directories. -/
theorem StdFs.SourceFile.reached (h : std.SourceFile fs src q c) (hsrc : src ≠ [])
    (hsound : ∀ {t n}, t ≠ [] → FileName n → std.found fs (append t n) ≠ none →
      std.found fs t = some .dir) : std.Reached fs src q := by
  obtain ⟨hnames, hfile⟩ := h
  refine ⟨fun p hp hne => ?_, c, hfile⟩
  -- from the file upwards, one name less at a time
  have hup : ∀ {r : List Name}, (∀ n ∈ r, FileName n) → r ≠ [] →
      std.found fs (below src (p ++ r)) ≠ none → std.found fs (below src p) = some .dir := by
    intro r
    induction r using List.reverseRecOn with
    | nil => intro _ hr _; exact absurd rfl hr
    | append_singleton r n ih =>
      intro hr _ hfound
      rw [← List.append_assoc, below_concat] at hfound
      have hdir := hsound (below_ne_nil hsrc fun m hm => ?_) (hr n (by simp)) hfound
      · by_cases hnil : r = []
        · rwa [hnil, List.append_nil] at hdir
        · exact ih (fun m hm => hr m (by simp [hm])) hnil (by rw [hdir]; simp)
      · obtain hm | hm := List.mem_append.mp hm
        · exact hnames m (hp.subset hm)
        · exact hr m (by simp [hm])
  obtain ⟨r, rfl⟩ := hp
  refine hup (fun n hn => hnames n (List.mem_append_right p hn)) ?_ (by rw [hfile]; simp)
  rintro rfl
  exact hne (List.append_nil p).symm

/-- The theorem for any disk on which what is found is found in directories. -/
theorem StdFs.imported_of_spared {syncRoot absolutePath : String} {depth : ℕ}
    (hname : fileName absolutePath.toList = some name)
    (hsound : ∀ {t n}, t ≠ [] → FileName n → std.found fs (append t n) ≠ none →
      std.found fs t = some .dir)
    (hrun : std.uploadLocalFile syncRoot absolutePath depth fs = some (.ok results, fs')) :
    let src := absolutePath.toList
    let dst := append syncRoot.toList name
    std.Visible fs src ∧ (std.importPlan fs src dst).Spared fs.fileAt →
      std.Imported fs fs' src dst name results := by
  rintro src dst ⟨hvisible, hspared⟩ q c hfile
  have hsrc : src ≠ [] := by
    intro hnil
    rw [show absolutePath.toList = [] from hnil, show fileName [] = none by decide] at hname
    exact absurd hname (by simp)
  obtain ⟨qs, hran⟩ := uploadLocalFile_ran hname hrun
  obtain ⟨hable, hc⟩ := hfile.able (hvisible q c hfile)
  have hq : q ∈ qs := hran.complete q trivial hable (hfile.reached hsrc hsound)
  refine ⟨?_, ?_, hran.count_eq_one (fileName_of_eq_some hname) hq⟩
  · exact (hran.runs.invariant hspared (.refl _ _)).kept hable hc
  · exact hran.runs.arrives hspared (.refl _ _) hq hc

theorem StdFs.harmless_of_imported {syncRoot absolutePath : String} {depth : ℕ}
    (hname : fileName absolutePath.toList = some name)
    (hrun : std.uploadLocalFile syncRoot absolutePath depth fs = some (.ok results, fs')) :
    let src := absolutePath.toList
    let dst := append syncRoot.toList name
    std.Imported fs fs' src dst name results →
      std.Visible fs src ∧ (std.importPlan fs src dst).Harmless fs.fileAt := by
  intro src dst himported
  obtain ⟨qs, hran⟩ := uploadLocalFile_ran hname hrun
  have hcopied : ∀ q c, std.SourceFile fs src q c → q ∈ qs := fun q c hfile =>
    hran.mem_of_count (fileName_of_eq_some hname) hfile.1 (himported q c hfile).2.2
  have hsource : ∀ {q c}, (std.importPlan fs src dst).able q →
      fs.fileAt ((std.importPlan fs src dst).src q) = some c → std.SourceFile fs src q c :=
    fun hable hc => ⟨hable.1, StdFs.found_eq_file.mpr ⟨hable.2.2, hc⟩⟩
  refine ⟨fun q c hfile => (hran.runs.able_of_mem (hcopied q c hfile)).2.1, ?_, ?_, ?_⟩
  · -- what was copied to itself is empty, or another copy came there
    intro q c hable hself hc
    have hfile := hsource hable hc
    obtain hcut | ⟨k, hk, hland⟩ := hran.runs.empty_of_self (hcopied q c hfile) hself
    · exact .inl (Option.some.inj ((himported q c hfile).2.1.symm.trans hcut))
    · exact .inr ⟨k, hran.runs.able_of_mem hk, hland⟩
  · -- one place has the copy of the one and the content of the other
    intro q q' c c' hland hable' hc hc'
    have hcopy := (himported q c (hsource hland.1 hc)).2.1
    have hkept := (himported q' c' (hsource hable' hc')).1
    rw [show std.place fs (below dst q) = std.place fs (below src q') from hland.2] at hcopy
    exact Option.some.inj (hcopy.symm.trans hkept)
  · intro q q' c c' hable hable' heq hc hc'
    have hcopy := (himported q c (hsource hable hc)).2.1
    have hcopy' := (himported q' c' (hsource hable' hc')).2.1
    rw [show std.place fs (below dst q) = std.place fs (below dst q') from heq] at hcopy
    exact Option.some.inj (hcopy.symm.trans hcopy')

/-- Neither location lies below the other. -/
def Beside (l l' : Loc) : Prop := ¬ l <+: l' ∧ ¬ l' <+: l

instance (l l' : Loc) : Decidable (Beside l l') := inferInstanceAs (Decidable (_ ∧ _))

theorem Beside.symm {l l' : Loc} (h : Beside l l') : Beside l' l := ⟨h.2, h.1⟩

/-- Nor does what is below the other. -/
theorem Beside.below {l l' : Loc} (h : Beside l l') (q : Loc) : ¬ l <+: l' ++ q := by
  intro hc
  obtain hl | hl := List.prefix_or_prefix_of_prefix hc (List.prefix_append l' q)
  · exact h.1 hl
  · exact h.2 hl

/-- Copies beside the source are harmless. -/
theorem StdFs.spared_of_beside {L D : Loc} (h : Beside L D)
    (hsrc : ∀ q, (∀ n ∈ q, FileName n) → std.place fs (below src q) = L ++ q)
    (hdst : ∀ q, (∀ n ∈ q, FileName n) → std.place fs (below dst q) = D ++ q)
    (F : Loc → Option (List UInt8)) : (std.importPlan fs src dst).Spared F := by
  refine Copies.Plan.spared_of_apart (fun q q' hq hq' heq => ?_) (fun q q' hq hq' heq => ?_) F
  · -- a place below both would be below one of them
    have hboth : D ++ q = L ++ q' := by
      rw [← hdst q hq.1, ← hsrc q' hq'.1]
      exact heq
    exact h.below q ⟨q', hboth.symm⟩
  · have hsame : D ++ q = D ++ q' := by
      rw [← hdst q hq.1, ← hdst q' hq'.1]
      exact heq
    rw [List.append_cancel_left hsame]

/-- **What an import damages.** When the files of the source can be looked up and copies of
copies that get to a file of the source, or to the copy of one, are harmless, an import that
succeeds has damaged nothing. When it has not, the files can be looked up, and copies are
harmless. -/
theorem import_damages_nothing {links : Links} {readDir : ReadDir links.real}
    {syncRoot absolutePath : String} {depth : ℕ} (htree : fs.Tree) (hlinks : links.WellFormed fs)
    (hname : fileName absolutePath.toList = some name)
    (hrun : (StdFs.linked links readDir).uploadLocalFile syncRoot absolutePath depth fs =
      some (.ok results, fs')) :
    let std := StdFs.linked links readDir
    let src := absolutePath.toList
    let dst := append syncRoot.toList name
    (std.Visible fs src ∧ (std.importPlan fs src dst).Spared fs.fileAt →
      std.Imported fs fs' src dst name results) ∧
    (std.Imported fs fs' src dst name results →
      std.Visible fs src ∧ (std.importPlan fs src dst).Harmless fs.fileAt) :=
  ⟨StdFs.imported_of_spared hname (fun ht hn => hlinks.found_of_append htree ht hn) hrun,
    StdFs.harmless_of_imported hname hrun⟩

end Import

/-- A file is imported to a folder through a symbolic link to it. -/
theorem import_damages_nothing_beside :
    let links := Links.single [['l']] "/s".toList
    let fs := ((FileSystem.single ['d'] ['f'] (some [7])).mkdirs [['s']]).1
    ∃ readDir fs', (StdFs.linked links readDir).uploadLocalFile "/l" "/d/f" 1 fs =
        some (.ok ["f"], fs') ∧
      (StdFs.linked links readDir).Imported fs fs' "/d/f".toList (append "/l".toList ['f']) ['f']
        ["f"] := by
  intro links fs
  have hnames : ∀ l n, n ∉ [['l']] →
      links.symbolic (l ++ [n]) = none ∧ links.hard (l ++ [n]) = l ++ [n] := by
    refine fun l n hn => ⟨if_neg fun hc => hn ?_, rfl⟩
    have hlast := (List.append_inj' (show l ++ [n] = [] ++ [['l']] from hc) rfl).2
    exact hlast ▸ List.mem_singleton_self n
  have hrun : ∃ fs', (StdFs.linked links (.ofNames links _ hnames)).uploadLocalFile "/l" "/d/f" 1
      fs = some (.ok ["f"], fs') := ⟨_, rfl⟩
  obtain ⟨fs', hrun⟩ := hrun
  have htree : fs.Tree := by
    refine (FileSystem.tree_single _ (by decide) (by decide)).mkdirs fun n hn => .inr ?_
    rw [List.mem_singleton.mp hn]
    decide
  have hlinks : links.WellFormed fs :=
    @Links.wellFormed_single fs [] ['l'] "/s".toList (by decide) (by decide)
  -- below the two files no link is in the way
  have hplace : ∀ {t : Text} {l : Loc} {d : Bool}, t ≠ [] → 2 ≤ l.length →
      links.resolve (fs.base t) (names t) = some (l, d) → ∀ q, (∀ n ∈ q, FileName n) →
        (StdFs.linked links (.ofNames links _ hnames)).place fs (below t q) = l ++ q := by
    intro t l d ht hl hres q hq
    obtain ⟨d', hres'⟩ := Links.resolve_below hq hres fun p n _ => if_neg fun hc => by
      have := congrArg List.length hc
      simp only [List.length_append, List.length_singleton] at this
      omega
    exact (hlinks.locate_real htree (below_ne_nil ht hq) hres').2
  have hsrc := hplace (t := "/d/f".toList) (l := [['d'], ['f']]) (d := false) (by decide)
    (by decide) (by decide)
  have hdst := hplace (t := append "/l".toList ['f']) (l := [['s'], ['f']]) (d := false)
    (by decide) (by decide) (by decide)
  refine ⟨_, fs', hrun, (import_damages_nothing htree hlinks (by decide) hrun).1
    ⟨fun _ _ _ _ _ => rfl, ?_⟩⟩
  exact StdFs.spared_of_beside (by decide) hsrc hdst _

/-- A file that is picked from the sync root itself is copied to where it is, and nothing is
left of it. -/
theorem not_imported_in_place : ¬ ∀ (links : Links) (readDir : ReadDir links.real)
    (fs fs' : FileSystem) (depth : ℕ) (syncRoot absolutePath : String) (name : Name)
    (results : List String), fs.Tree → links.WellFormed fs →
      fileName absolutePath.toList = some name →
      let std := StdFs.linked links readDir
      (∀ u, u ≠ [] → std.place fs (append syncRoot.toList name) ≠
        std.place fs absolutePath.toList ++ u) →
      std.uploadLocalFile syncRoot absolutePath depth fs = some (.ok results, fs') →
        std.Imported fs fs' absolutePath.toList (append syncRoot.toList name) name results := by
  intro h
  let std := StdFs.linked .empty (.ofNames .empty [] fun _ _ _ => ⟨rfl, rfl⟩)
  have hrun : ∃ fs', std.uploadLocalFile "/d" "/d/f" 1 (.single ['d'] ['f'] (some [1, 2])) =
      some (.ok ["f"], fs') ∧ fs'.fileAt [['d'], ['f']] = some [] := ⟨_, rfl, rfl⟩
  obtain ⟨fs', hrun, hcut⟩ := hrun
  have hplace : (FileSystem.single ['d'] ['f'] (some [1, 2])).locate
      (Links.empty.real (.single ['d'] ['f'] (some [1, 2])) "/d/f".toList) = [['d'], ['f']] := by
    decide
  have hsame : append "/d".toList ['f'] = "/d/f".toList := by decide
  have himported := h _ _ _ fs' _ _ _ ['f'] _ (FileSystem.tree_single _ (by decide) (by decide))
    (Links.wellFormed_empty _) (by decide) (fun u hu => by
      rw [hsame]
      exact fun hc => hu (List.self_eq_append_right.mp hc)) hrun
  have hkept := (himported [] [1, 2] ⟨by simp, by decide⟩).1
  change fs'.fileAt (FileSystem.locate _ (Links.empty.real _ "/d/f".toList)) = _ at hkept
  rw [hplace, hcut] at hkept
  exact absurd hkept (by simp)

-- so is one that a link at the destination leads to
example (readDir : ReadDir (Links.single [['s'], ['f']] "/d/f".toList).real) :
    ((StdFs.linked _ readDir).uploadLocalFile "/s" "/d/f" 1
      ((FileSystem.single ['d'] ['f'] (some [1, 2])).mkdirs [['s']]).1).map
        (fun copied => copied.2.fileAt [['d'], ['f']]) = some (some []) := rfl

/-! ### Copies of copies

The two halves of `import_damages_nothing` differ in the files that are made below the source
and copied on from there. Whether they are depends on the order of the entries, so no condition
on the disk and the paths decides it. -/

/-- The folder `/b/b` has a file `x/f`, and its folder `b/b` has another one. -/
def foldersInFolders : FileSystem :=
  [([['b']], Node.dir), ([['b'], ['b']], .dir), ([['b'], ['b'], ['b']], .dir),
    ([['b'], ['b'], ['b'], ['b']], .dir), ([['b'], ['b'], ['b'], ['b'], ['x']], .dir),
    ([['b'], ['b'], ['b'], ['b'], ['x'], ['f']], .file [1]), ([['b'], ['b'], ['b'], ['x']], .dir),
    ([['b'], ['b'], ['x']], .dir), ([['b'], ['b'], ['x'], ['f']], .file [2])].foldl
    (fun fs e => fs.set e.1 e.2) .blank

theorem mem_foldersInFolders {l : Loc} {c : List UInt8}
    (h : foldersInFolders.fileAt l = some c) :
    l = [['b'], ['b'], ['b'], ['b'], ['x'], ['f']] ∧ c = [1] ∨
      l = [['b'], ['b'], ['x'], ['f']] ∧ c = [2] := by
  have hnode := FileSystem.fileAt_eq_some_iff.mp h
  have hlookup : foldersInFolders.nodes.lookup l = some (.file c) := by
    rw [← hnode]
    exact FileSystem.lookup_of_node_ne_dir (by rw [hnode]; simp)
  have hmem := AList.mem_lookup_iff.mp (Option.mem_def.mpr hlookup)
  have hall : ∀ e ∈ foldersInFolders.nodes.entries, e.2 = .dir ∨
      e = ⟨[['b'], ['b'], ['b'], ['b'], ['x'], ['f']], .file [1]⟩ ∨
        e = ⟨[['b'], ['b'], ['x'], ['f']], .file [2]⟩ := by decide
  obtain hc | hc | hc := hall _ hmem
  · exact absurd hc (by simp)
  · simp only [Sigma.mk.injEq, heq_eq_eq, Node.file.injEq] at hc
    exact .inl hc
  · simp only [Sigma.mk.injEq, heq_eq_eq, Node.file.injEq] at hc
    exact .inr hc

/-- With `x` first, `/b/b` is imported into `/` undamaged. With `b` first, the other file has
come to `b/x/f` before that is listed, and is copied on to `x/f`. -/
theorem imported_depends_on_order :
    (∃ results fs', uploadLocalFile (.first fun _ => some ['x']) "/" "/b/b" 6 foldersInFolders =
        some (.ok results, fs') ∧
      (StdFs.plain (.first fun _ => some ['x'])).Imported foldersInFolders fs' "/b/b".toList
        "/b".toList ['b'] results) ∧
    ∃ results fs', uploadLocalFile (.first fun _ => some ['b']) "/" "/b/b" 6 foldersInFolders =
        some (.ok results, fs') ∧
      ¬ (StdFs.plain (.first fun _ => some ['b'])).Imported foldersInFolders fs' "/b/b".toList
        "/b".toList ['b'] results := by
  have hsrc : foldersInFolders.locate "/b/b".toList = [['b'], ['b']] := by decide
  have hdst : foldersInFolders.locate "/b".toList = [['b']] := by decide
  constructor
  · have hrun : ∃ fs', uploadLocalFile (.first fun _ => some ['x']) "/" "/b/b" 6
        foldersInFolders = some (.ok ["b/x/f", "b/b/b/x/f"], fs') ∧
          fs'.fileAt [['b'], ['b'], ['b'], ['b'], ['x'], ['f']] = some [1] ∧
          fs'.fileAt [['b'], ['b'], ['b'], ['x'], ['f']] = some [1] ∧
          fs'.fileAt [['b'], ['b'], ['x'], ['f']] = some [2] ∧
          fs'.fileAt [['b'], ['x'], ['f']] = some [2] := ⟨_, rfl, rfl, rfl, rfl, rfl⟩
    obtain ⟨fs', hrun, h₁, h₂, h₃, h₄⟩ := hrun
    refine ⟨_, fs', hrun, fun q c hfile => ?_⟩
    have hplace := @locate_below foldersInFolders "/b/b".toList q hfile.1
    have hplace' := @locate_below foldersInFolders "/b".toList q hfile.1
    obtain ⟨-, hc⟩ := StdFs.found_eq_file.mp hfile.2
    change foldersInFolders.fileAt (foldersInFolders.locate (below "/b/b".toList q)) = _ at hc
    change fs'.fileAt (foldersInFolders.locate (below "/b/b".toList q)) = _ ∧
      fs'.fileAt (foldersInFolders.locate (below "/b".toList q)) = _ ∧ _
    rw [hplace, hsrc] at hc ⊢
    rw [hplace', hdst]
    obtain ⟨hq, rfl⟩ | ⟨hq, rfl⟩ := mem_foldersInFolders hc
    · obtain rfl : q = [['b'], ['b'], ['x'], ['f']] := by simpa using hq
      exact ⟨h₁, h₂, by decide⟩
    · obtain rfl : q = [['x'], ['f']] := by simpa using hq
      exact ⟨h₃, h₄, by decide⟩
  · have hrun : ∃ results fs', uploadLocalFile (.first fun _ => some ['b']) "/" "/b/b" 6
        foldersInFolders = some (.ok results, fs') ∧
          fs'.fileAt [['b'], ['b'], ['x'], ['f']] = some [1] := ⟨_, _, rfl, rfl⟩
    obtain ⟨results, fs', hrun, hfile⟩ := hrun
    refine ⟨results, fs', hrun, fun himported => ?_⟩
    have hkept := (himported [['x'], ['f']] [2] ⟨by decide, by decide⟩).1
    exact absurd (hfile.symm.trans hkept) (by decide)

end AdaptiveSync
