import Mathlib.Data.Finset.Lattice.Fold
import AdaptiveSync.Desktop.Import
import AdaptiveSync.Lib.Periodic

/-!
# Importing a folder into itself

`copy_recursive` makes the destination of a folder before it lists the folder. When the sync
root lies below the folder that is imported, the destination does, too: the folders that are
made are among those that are listed later, a copy of them is made further down, and so on.

With `u` the way from the source down to its destination, the places in question are those
along `u` over and over again. The call never ends when nothing stands in the way at any of
them (`Endless`), and then an order of the entries that goes along `u` first shows it
(`copyRecursive_diverges`). Otherwise it ends whatever the order (`copyRecursive_terminates`),
because what is made below the source is no longer than what it is the copy of and `u` more,
and the names it has in common with `u` over and over again are as many more, too:

* a folder that can be reached leaves that word no later than at the place where the copy is
  stopped;
* from there on it is as long as the folders of the beginning at most.

`Confined` is the part of the argument that is about words alone. The disks here have no links.
-/

namespace AdaptiveSync

open Fs LexPath Periodic

/-- A copy goes through the place: a directory is there or can be made, and it can be looked up
and listed. -/
def Walkable (fs : FileSystem) (l : Loc) : Prop :=
  (fs.node l = some .dir ∨ fs.Creatable l) ∧ fs.os.fails .stat l = false ∧
    fs.os.fails .readdir l = false

/-- The destination lies below the source, and a copy goes through all the places along the way
between them, over and over again. -/
def Endless (fs : FileSystem) (src dst : Text) : Prop :=
  fs.stat src = .dir ∧ ∃ u, ∃ hu : u ≠ [], fs.locate dst = fs.locate src ++ u ∧
    ∀ i, Walkable fs (fs.locate src ++ upTo (repeated u hu) i)

/-! ### What is walkable does not change -/

section Walkable

variable {fs : FileSystem} {l l' : Loc}

/-- Making directories opens no way. -/
theorem walkable_of_mkdirs (h : Walkable (fs.mkdirs l).1 l') : Walkable fs l' := by
  obtain ⟨hnode, hstat, hreaddir⟩ := h
  rw [FileSystem.mkdirs_os] at hstat hreaddir
  refine ⟨?_, hstat, hreaddir⟩
  obtain hsame | ⟨-, hmade, -⟩ := fs.node_mkdirs_eq_or_made l l'
  · unfold FileSystem.Creatable at hnode ⊢
    rwa [hsame, FileSystem.mkdirs_os] at hnode
  · exact .inr hmade

/-- Making directories closes no way. -/
theorem Walkable.mkdirs (h : Walkable fs l') : Walkable (fs.mkdirs l).1 l' := by
  obtain ⟨hnode, hstat, hreaddir⟩ := h
  refine ⟨?_, (FileSystem.mkdirs_os l).symm ▸ hstat, (FileSystem.mkdirs_os l).symm ▸ hreaddir⟩
  obtain hsame | ⟨-, -, hdir⟩ := fs.node_mkdirs_eq_or_made l l'
  · unfold FileSystem.Creatable at hnode ⊢
    rwa [hsame, FileSystem.mkdirs_os]
  · exact .inl hdir

theorem walkable_of_set {b : List UInt8} (hfree : fs.node l ≠ some .dir)
    (h : Walkable (fs.set l (.file b)) l') : Walkable fs l' := by
  obtain ⟨hnode, hstat, hreaddir⟩ := h
  refine ⟨?_, hstat, hreaddir⟩
  unfold FileSystem.Creatable at hnode ⊢
  by_cases heq : l' = l
  · -- a file is no way
    rw [heq, FileSystem.node_set_self hfree] at hnode
    simp at hnode
  · rwa [FileSystem.node_set_of_ne heq] at hnode

end Walkable

/-! ### The call that does not end -/

/-- The entry that leads along the word comes first, wherever below `L` that is. -/
def Listing.along (L : Loc) (f : ℕ → Name) : Listing :=
  .first fun l => some (f (l.length - L.length))

/-- When the folder has the next place along the word, its list begins with that. -/
theorem Listing.entries_along {fs : FileSystem} {L : Loc} {f : ℕ → Name} {i : ℕ}
    (htree : fs.Tree) (hnode : fs.node (L ++ upTo f (i + 1)) ≠ none) :
    ∃ entries, (Listing.along L f).entries fs (L ++ upTo f i) = .ok (f i) :: entries := by
  have hname : FileName (f i) := htree.named _ hnode _ (by simp [upTo_succ])
  rw [upTo_succ, ← List.append_assoc] at hnode
  have hmem := mem_childNames hname hnode
  have hindex : (L ++ upTo f i).length - L.length = i := by simp
  refine ⟨((childNames fs (L ++ upTo f i)).erase (f i)).map .ok, ?_⟩
  show (namesFirst _ fs (L ++ upTo f i)).map Except.ok = _
  simp only [namesFirst, hindex, if_pos hmem, List.map_cons]

/-- **The copy that goes along the word first never ends.** -/
theorem copyRecursive_diverges {base : Text} {L u : Loc} (hu : u ≠ []) (depth : ℕ) :
    ∀ {fs : FileSystem} {src dst : Text} {i : ℕ}, fs.Tree → src ≠ [] →
      fs.locate src = L ++ upTo (repeated u hu) i →
      fs.locate dst = L ++ upTo (repeated u hu) (u.length + i) →
      fs.node (fs.locate src) = some .dir →
      (∀ j, Walkable fs (L ++ upTo (repeated u hu) j)) →
      copyRecursive (.along L (repeated u hu)) base depth src dst fs = none := by
  induction depth with
  | zero => intros; rfl
  | succ depth ih =>
    intro fs src dst i htree hne hsrc hdst hnode hwalk
    have hupos : 0 < u.length := List.length_pos_iff.mpr hu
    obtain ⟨-, hstat, hreaddir⟩ := hsrc ▸ hwalk i
    -- the destination is made, and all above it
    have hcreate : ∀ p, p <+: fs.locate dst → fs.node p = some .dir ∨ fs.Creatable p := by
      intro p hp
      rw [hdst] at hp
      obtain hp' | ⟨r, rfl⟩ := List.prefix_or_prefix_of_prefix hp (List.prefix_append L _)
      · -- above the source are directories
        refine .inl (htree.dir_above (hp'.trans ?_) hnode)
        rw [hsrc]
        exact List.prefix_append _ _
      · -- and below it the places along the word
        have hr := eq_upTo_of_prefix ((List.prefix_append_right_inj L).mp hp)
        rw [hr]
        exact (hwalk r.length).1
    have hmade := FileSystem.mkdirs_succeeds hcreate
    have htree' := htree.mkdirs fun _ hn => FileSystem.spelled_of_mem_locate (t := dst) hn
    have hos := fs.mkdirs_os (fs.locate dst)
    have hdir := FileSystem.node_of_mkdirs hmade
    have hsucc : (fs.mkdirs (fs.locate dst)).1.node (L ++ upTo (repeated u hu) (i + 1)) =
        some .dir := by
      refine htree'.dir_above ?_ hdir
      rw [hdst, List.prefix_append_right_inj]
      exact upTo_begins _ (by omega)
    -- so the folder has the next place along the word, and that comes first
    obtain ⟨entries, hentries⟩ := Listing.entries_along htree' (by rw [hsucc]; simp)
    have hname : FileName (repeated u hu i) :=
      htree'.named _ (by rw [hsucc]; simp) _ (by simp [upTo_succ])
    have hnext := @ih (fs.mkdirs (fs.locate dst)).1 (append src (repeated u hu i))
      (append dst (repeated u hu i)) (i + 1) htree' (append_fileName_ne_nil hname)
      (by rw [locate_append hname, FileSystem.mkdirs_locate, hsrc, List.append_assoc, upTo_succ])
      (by
        rw [locate_append hname, FileSystem.mkdirs_locate, hdst, List.append_assoc,
          ← Nat.add_assoc, upTo_succ]
        congr 3
        exact (congrFun (repeated_add u hu) i).symm)
      (by
        rw [locate_append hname, FileSystem.mkdirs_locate, hsrc, List.append_assoc, ← upTo_succ]
        exact hsucc)
      fun j => (hwalk j).mkdirs
    obtain ⟨-, -, hrun⟩ | ⟨hc | hc, -⟩ :=
      copyRecursive_dir _ base depth dst (FileSystem.stat_eq_dir_iff.mpr ⟨hne, hstat, hnode⟩) rfl
    · -- the first call of the loop does not end
      rw [hrun, FileSystem.mkdirs_locate, hsrc, hentries, copyEntries, hnext]
    · rw [hmade] at hc
      exact absurd hc (by simp)
    · rw [hreaddir] at hc
      exact absurd hc (by simp)

/-! ### Words that stay short

`here` is a property of the places below the source where something may be, and `reached` one
of the places the calls get to. -/

/-- Calls that go no further than the blocked places stay among words of bounded length. -/
structure Confined (L D : Loc) (blocked : Set Loc) (here reached : Loc → Prop) (bound : ℕ) :
    Prop where
  /-- What is made on the way to the copy of a place may be there. -/
  made : ∀ {r r'}, here r → L ++ r' <+: D ++ r → here r'
  down : ∀ {r} n, reached r → L ++ r ∉ blocked → reached (r ++ [n])
  short : ∀ {r}, here r → reached r → r.length ≤ bound

/-- When the destination does not lie below the source, nothing gets longer. -/
theorem confined_outside {L D : Loc} (N : ℕ) (h : ∀ u, u ≠ [] → D ≠ L ++ u) :
    Confined L D ∅ (fun r => r.length ≤ N) (fun _ => True) N where
  made {r r'} hr hbegin := by
    have hlen : D.length ≤ L.length := by
      have hL : L <+: D ++ r := (List.prefix_append L r').trans hbegin
      -- what is made for a copy is below the source only if one of the two contains the other
      obtain hLD | hDL := List.prefix_or_prefix_of_prefix hL (List.prefix_append D r)
      · obtain ⟨u, rfl⟩ := hLD
        by_cases hu : u = []
        · simp [hu]
        · exact absurd rfl (h u hu)
      · exact hDL.length_le
    have := hbegin.length_le
    simp only [List.length_append] at this
    omega
  down _ _ _ := trivial
  short hr _ := hr

/-- When a place along the way is blocked, words that go along further are not reached, and
what is made is longer only by what it goes along more. -/
theorem confined_below {L u : Loc} (hu : u ≠ []) (N m : ℕ) :
    Confined L (L ++ u) {L ++ upTo (repeated u hu) m}
      (fun r => r.length ≤ N + along (repeated u hu) r)
      (fun r => m ≤ along (repeated u hu) r → r.length = m) (N + m) where
  made {r r'} hr hbegin := by
    rw [List.append_assoc, List.prefix_append_right_inj] at hbegin
    obtain ⟨x, hx⟩ := hbegin
    have hlen := congrArg List.length hx
    have hahead := along_append_repeated u hu r
    -- the rest that is not made goes along for its length at most
    have hrest := (along_append (f := repeated u hu) (r := r') (x := x)).2
    rw [hx] at hrest
    simp only [List.length_append] at hlen
    omega
  down {r} n hr hblocked := by
    intro hm
    by_cases hlt : along (repeated u hu) r < r.length
    · -- the place has left the word before
      rw [along_append_of_lt hlt] at hm
      have := hr hm
      omega
    · have heq : along (repeated u hu) r = r.length := by
        have := along_le_length (f := repeated u hu) (r := r)
        omega
      have hnot : r.length ≠ m := by
        rintro rfl
        apply hblocked
        rw [Set.mem_singleton_iff, ← along_eq_length_iff.mp heq]
      -- one name more goes along for one more at most
      have hle := (along_append (f := repeated u hu) (r := r) (x := [n])).2
      simp only [List.length_append, List.length_singleton] at hle ⊢
      have := fun hc => hnot (hr hc)
      omega
  short {r} hr hreached := by
    by_cases hm : m ≤ along (repeated u hu) r
    · have := hreached hm
      omega
    · omega

/-! ### The call that ends -/

section Ends

variable {L D : Loc} {blocked : Set Loc} {here reached : Loc → Prop} {bound : ℕ} {os : Os}
  {fs : FileSystem} {r : Loc}

/-- What holds of the disk throughout: nothing is where nothing may be, and the ways that were
blocked are. -/
structure Kept (os : Os) (L : Loc) (blocked : Set Loc) (here : Loc → Prop) (fs : FileSystem) :
    Prop where
  os : fs.os = os
  here : ∀ {r}, fs.node (L ++ r) ≠ none → here r
  blocked : ∀ l ∈ blocked, ¬ Walkable fs l

namespace Kept

theorem mkdirs (h : Kept os L blocked here fs) (hc : Confined L D blocked here reached bound)
    (hr : here r) {l : Loc} (hl : l <+: D ++ r) : Kept os L blocked here (fs.mkdirs l).1 where
  os := (FileSystem.mkdirs_os l).trans h.os
  here {r'} hnode := by
    obtain hsame | ⟨hbegin, -⟩ := fs.node_mkdirs_eq_or_made l (L ++ r')
    · rw [hsame] at hnode
      exact h.here hnode
    · exact hc.made hr (hbegin.trans hl)
  blocked l' hl' hwalk := h.blocked l' hl' (walkable_of_mkdirs hwalk)

theorem set (h : Kept os L blocked here fs) (hc : Confined L D blocked here reached bound)
    (hr : here r) (hfree : fs.node (D ++ r) ≠ some .dir) (b : List UInt8) :
    Kept os L blocked here (fs.set (D ++ r) (.file b)) where
  os := h.os
  here {r'} hnode := by
    by_cases heq : L ++ r' = D ++ r
    · exact hc.made hr (heq ▸ List.prefix_refl _)
    · rw [FileSystem.node_set_of_ne heq] at hnode
      exact h.here hnode
  blocked l' hl' hwalk := h.blocked l' hl' (walkable_of_set hfree hwalk)

end Kept

/-- A place that is listed is not blocked. -/
theorem walkable_of_stat {src : Text} (hstat : fs.stat src = .dir)
    (hread : fs.os.fails .readdir (fs.locate src) = false) : Walkable fs (fs.locate src) := by
  obtain ⟨-, hfails, hdir⟩ := FileSystem.stat_eq_dir_iff.mp hstat
  exact ⟨.inl hdir, hfails, hread⟩

/-- **A copy that is confined ends**, when the bound of its depth goes beyond the bound of the
words. -/
theorem copyRecursive_terminates (listing : Listing) {base : Text}
    (hc : Confined L D blocked here reached bound) (depth : ℕ) :
    ∀ {fs : FileSystem} {src dst : Text} {r : Loc}, Kept os L blocked here fs →
      fs.locate src = L ++ r → fs.locate dst = D ++ r → fs.parent dst <+: D ++ r →
      reached r → r.length ≤ bound + 1 → bound + 2 ≤ r.length + depth →
        ∃ copied, copyRecursive listing base depth src dst fs = some copied ∧
          Kept os L blocked here copied.2 := by
  induction depth with
  | zero => intros; omega
  | succ depth ih =>
    intro fs src dst r hkept hsrc hdst hparent hreached hshort hdepth
    match hstat : fs.stat src with
    | .notFound | .failed =>
      exact ⟨_, copyRecursive_other listing base depth dst (by simp [hstat]) (by simp [hstat]),
        hkept⟩
    | .file b =>
      have hr : here r := by
        apply hkept.here
        rw [← hsrc, FileSystem.node_of_stat hstat]
        simp
      have hmade := hkept.mkdirs hc hr hparent
      -- the copy stands where a word that is here leads, whether it fails or not
      have hlast : Kept os L blocked here ((StdFs.plain listing).copySingle base src dst fs).2 := by
        obtain heq | ⟨hfree, b', heq⟩ :=
          (StdFs.plain listing).copySingle_cases base src (congrArg (fun l => (fs.mkdirs l).1)
            (FileSystem.locate_parentPath dst))
        · rwa [heq]
        · rw [heq]
          exact hdst.symm ▸ hmade.set hc hr (hdst ▸ hfree) b'
      exact ⟨_, (StdFs.plain listing).copyRecursive_file base depth dst hstat, hlast⟩
    | .dir =>
      obtain ⟨-, -, hdir⟩ := FileSystem.stat_eq_dir_iff.mp hstat
      have hr : here r := by
        apply hkept.here
        rw [← hsrc, hdir]
        simp
      have hmade := hkept.mkdirs hc hr (List.prefix_refl _)
      obtain ⟨-, hread, hrun⟩ | ⟨-, e, hrun⟩ := copyRecursive_dir listing base
        depth dst hstat rfl
      · -- the entries are one name longer, and reached, since the folder was listed
        have hopen : L ++ r ∉ blocked := fun hmem =>
          hkept.blocked _ hmem (hsrc ▸ walkable_of_stat hstat hread)
        have hlen := hc.short hr hreached
        rw [hrun]
        refine copyEntries_total (hdst ▸ hmade) fun n hn fs' hfs' => ?_
        have hname := listing.named _ _ n hn
        -- the entries before this one have not moved anything
        have hlocate : fs'.locate = fs.locate :=
          FileSystem.locate_congr (hfs'.os.trans hkept.os.symm)
        have hsrc' : fs'.locate (append src n) = L ++ (r ++ [n]) := by
          rw [locate_append hname, hlocate, hsrc, List.append_assoc]
        have hdst' : fs'.locate (append dst n) = D ++ (r ++ [n]) := by
          rw [locate_append hname, hlocate, hdst, List.append_assoc]
        refine ih hfs' hsrc' hdst' ?_ (hc.down n hreached hopen) ?_ ?_
        · rw [parent_append_fileName hname, hlocate, hdst, ← List.append_assoc]
          exact List.prefix_append _ _
        · rw [List.length_append, List.length_singleton]
          omega
        · rw [List.length_append, List.length_singleton]
          omega
      · exact ⟨_, hrun, hdst ▸ hmade⟩

end Ends

/-! ### Exactly when an import ends -/

/-- What is on a disk stands at locations of bounded length. -/
theorem exists_length_le (fs : FileSystem) : ∃ N, ∀ l, fs.node l ≠ none → l.length ≤ N := by
  refine ⟨max fs.os.cwd.length (fs.nodes.keys.toFinset.sup List.length), fun l hl => ?_⟩
  unfold FileSystem.node at hl
  split at hl
  · next hcwd => exact le_max_of_le_left hcwd.length_le
  · have hkey : l ∈ fs.nodes.keys.toFinset := by
      rw [List.mem_toFinset]
      exact AList.lookup_isSome.mp (Option.isSome_iff_ne_none.mpr hl)
    exact le_max_of_le_right (Finset.le_sup (f := List.length) hkey)

/-- A copy that does not go on and on below its source is confined. -/
theorem exists_confined {fs : FileSystem} {src dst : Text} (hdir : fs.stat src = .dir)
    (h : ¬ Endless fs src dst) : ∃ blocked here reached bound,
      Confined (fs.locate src) (fs.locate dst) blocked here reached bound ∧
        Kept fs.os (fs.locate src) blocked here fs ∧ reached [] := by
  obtain ⟨N, hN⟩ := exists_length_le fs
  have hshort : ∀ {r}, fs.node (fs.locate src ++ r) ≠ none → r.length ≤ N := by
    intro r hr
    have := hN _ hr
    rw [List.length_append] at this
    omega
  by_cases hbelow : ∃ u, u ≠ [] ∧ fs.locate dst = fs.locate src ++ u
  · obtain ⟨u, hu, hdst⟩ := hbelow
    have hblocked : ∃ m, ¬ Walkable fs (fs.locate src ++ upTo (repeated u hu) m) := by
      by_contra! hc
      exact h ⟨hdir, u, hu, hdst, hc⟩
    obtain ⟨m, hm⟩ := hblocked
    refine ⟨_, _, _, _, hdst ▸ confined_below hu N m, ⟨rfl, fun hr => ?_, ?_⟩, ?_⟩
    · exact le_trans (hshort hr) (Nat.le_add_right _ _)
    · rintro l rfl
      exact hm
    · -- the source itself goes along for nothing
      intro hzero
      exact (Nat.le_zero.mp hzero).symm
  · have hout : ∀ u, u ≠ [] → fs.locate dst ≠ fs.locate src ++ u := by
      rintro u hu hdst
      exact hbelow ⟨u, hu, hdst⟩
    exact ⟨_, _, _, _, confined_outside N hout, ⟨rfl, hshort, fun l hl => hl.elim⟩, trivial⟩

/-- **An import ends, whatever the order of the entries, exactly when the copy does not go on
and on below its source.** -/
theorem import_terminates_iff {fs : FileSystem} {src sr : Text} {name : Name} (htree : fs.Tree)
    (hname : fileName src = some name) :
    (∀ listing, ∃ depth, copyRecursive listing sr depth src (append sr name) fs ≠ none) ↔
      ¬ Endless fs src (append sr name) := by
  constructor
  · rintro hends ⟨hdir, u, hu, hdst, hwalk⟩
    obtain ⟨depth, hrun⟩ := hends (.along (fs.locate src) (repeated u hu))
    obtain ⟨hne, -, hnode⟩ := FileSystem.stat_eq_dir_iff.mp hdir
    apply hrun
    refine copyRecursive_diverges hu depth (i := 0) htree hne ?_ ?_ hnode hwalk
    · exact (List.append_nil _).symm
    · rw [Nat.add_zero, upTo_repeated_length]
      exact hdst
  · intro h listing
    by_cases hdir : fs.stat src = .dir
    · obtain ⟨blocked, here, reached, bound, hc, hkept, hreached⟩ := exists_confined hdir h
      have hparent : fs.parent (append sr name) <+: fs.locate (append sr name) ++ [] := by
        rw [List.append_nil, parent_append_fileName (fileName_of_eq_some hname),
          locate_append (fileName_of_eq_some hname)]
        exact List.prefix_append _ _
      obtain ⟨copied, hrun, -⟩ := copyRecursive_terminates listing hc (bound + 2) hkept
        (List.append_nil _).symm (List.append_nil _).symm hparent hreached (Nat.zero_le _)
        (Nat.le_add_left _ _)
      exact ⟨bound + 2, by rw [hrun]; simp⟩
    · -- what is no folder makes no further calls
      refine ⟨1, ?_⟩
      by_cases hfile : ∃ b, fs.stat src = .file b
      · obtain ⟨b, hfile⟩ := hfile
        have hrun := (StdFs.plain listing).copyRecursive_file sr 0 (append sr name) hfile
        exact fun hc => absurd (hrun.symm.trans hc) (by simp)
      · rw [copyRecursive_other listing sr 0 _ hdir (not_exists.mp hfile)]
        simp

/-- A folder that is imported into a folder beside it. -/
theorem import_beside_terminates :
    ∃ depth, copyRecursive (.first fun _ => none) "/s".toList depth "/d".toList
      (append "/s".toList ['d']) (FileSystem.single ['d'] ['f'] (some [7])) ≠ none := by
  refine (import_terminates_iff (FileSystem.tree_single _ (by decide) (by decide))
    (by decide)).mpr ?_ _
  rintro ⟨-, u, -, hbelow, -⟩
  have hsrc : (FileSystem.single ['d'] ['f'] (some [7])).locate "/d".toList = [['d']] := by decide
  have hdst : (FileSystem.single ['d'] ['f'] (some [7])).locate (append "/s".toList ['d']) =
      [['s'], ['d']] := by decide
  rw [hsrc, hdst] at hbelow
  exact absurd (List.cons.inj hbelow).1 (by decide)

/-- The folder `/d` is imported while the sync root is `/d/r`: the copy goes to `/d/r/d`, which
has a copy of `r`, and so on. -/
theorem not_import_terminates_below : ¬ ∀ (fs : FileSystem) (src sr : Text) (name : Name),
    fs.Tree → fileName src = some name →
      ∀ listing, ∃ depth, copyRecursive listing sr depth src (append sr name) fs ≠ none := by
  intro h
  have hu : [['r'], ['d']] ≠ [] := by simp
  obtain ⟨depth, hrun⟩ := h (.single ['d'] ['f'] none) "/d".toList "/d/r".toList ['d']
    (FileSystem.tree_single _ (by decide) (by decide)) (by decide)
    (.along [['d']] (repeated [['r'], ['d']] hu))
  have hsrc : (FileSystem.single ['d'] ['f'] none).locate "/d".toList = [['d']] := by decide
  have hdst : (FileSystem.single ['d'] ['f'] none).locate (append "/d/r".toList ['d']) =
      [['d']] ++ upTo (repeated [['r'], ['d']] hu) 2 := by
    have := upTo_repeated_length [['r'], ['d']] hu
    rw [show upTo (repeated [['r'], ['d']] hu) 2 = [['r'], ['d']] from this]
    decide
  apply hrun
  refine copyRecursive_diverges hu depth (i := 0) (FileSystem.tree_single _ (by decide)
    (by decide)) (by decide) hsrc hdst (by decide) fun i => ⟨?_, rfl, rfl⟩
  -- below `/d` nothing is in the way
  rw [FileSystem.node_single, if_neg (by simp)]
  cases i with
  | zero => exact .inl rfl
  | succ i =>
    refine .inr ⟨?_, rfl⟩
    rw [FileSystem.node_single, if_neg (by simp), if_neg]
    · simp
    · intro hc
      exact absurd (congrArg List.length hc) (by simp)

end AdaptiveSync
