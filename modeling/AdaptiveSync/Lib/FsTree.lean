import AdaptiveSync.Lib.Fs

/-!
# The tree of a file system, and what calls do to it

`Tree fs` says that the locations of `fs` form a tree: what is at a location stands in a
directory, under a file name, and the working directory is one of the directories.

`Edits S fs fs'` says what a sequence of calls that writes at the locations `S` can do: make
directories where nothing is, put files where no directory is, and take files away. Every
invariant of the calls is an induction over it: the tree stays a tree (`Edits.tree`), and
outside `S` no file changes (`Edits.filesAgree`).
-/

namespace Fs

open LexPath

/-- A name that a file or a directory can have. -/
def FileName (n : Name) : Prop := Proper n ∧ '/' ∉ n

instance (n : Name) : Decidable (FileName n) := inferInstanceAs (Decidable (_ ∧ _))

/-! ### File names behind a text -/

section Texts

variable {fs : FileSystem} {t : Text} {n : Name}

theorem isAbsolute_fileName (hn : FileName n) : isAbsolute n = false := by
  cases n with
  | nil => rfl
  | cons c n =>
    have hc : c ≠ '/' := fun hc => hn.2 (hc ▸ List.mem_cons_self)
    simp [isAbsolute, hc]

theorem append_fileName_ne_nil (hn : FileName n) : append t n ≠ [] := by
  have hne : n ≠ [] := hn.1.1
  unfold append
  rw [isAbsolute_fileName hn]
  simp only [Bool.false_eq_true, if_false]
  split
  · simp [hne]
  · simp

/-- A file name put behind a text is its last name; an empty name before it is gone. -/
theorem names_append_fileName (hn : FileName n) :
    ∃ init, names (append t n) = init ++ [n] ∧ (names t = init ∨ names t = init ++ [[]]) := by
  have hsingle : names n = [n] := List.splitOn_eq_singleton hn.2
  unfold append
  rw [isAbsolute_fileName hn]
  simp only [Bool.false_eq_true, if_false]
  split
  · next h =>
    rcases h with rfl | h
    · exact ⟨[], hsingle, .inr rfl⟩
    · obtain ⟨t', rfl⟩ := List.getLast?_eq_some_iff.mp h
      refine ⟨names t', ?_, .inr ?_⟩
      · rw [List.append_assoc, List.singleton_append, names_append_sep, hsingle]
      · exact names_append_sep t' []
  · exact ⟨names t, by rw [names_append_sep, hsingle], .inl rfl⟩

theorem base_append_fileName (hn : FileName n) : fs.base (append t n) = fs.base t := by
  unfold FileSystem.base
  rw [isAbsolute_append (isAbsolute_fileName hn)]

/-- The entry of a folder is where its name leads to below the folder. -/
theorem locate_append (hn : FileName n) : fs.locate (append t n) = fs.locate t ++ [n] := by
  obtain ⟨init, happend, ht⟩ := @names_append_fileName t n hn
  have hinit : walk true (fs.base t) (names t) = walk true (fs.base t) init := by
    obtain ht | ht := ht
    · rw [ht]
    · -- an empty name is skipped
      rw [ht, walk_append]
      rfl
  unfold FileSystem.locate
  rw [base_append_fileName hn, happend, walk_append, hinit]
  exact push_proper true _ hn.1

theorem endsInDirectory_append_fileName (hn : FileName n) :
    endsInDirectory (append t n) = false := by
  obtain ⟨init, happend, -⟩ := @names_append_fileName t n hn
  obtain ⟨h₁, h₂, h₃⟩ := hn.1
  simp [endsInDirectory, happend, h₁, h₂, h₃]

theorem parent_append_fileName (hn : FileName n) : fs.parent (append t n) = fs.locate t := by
  obtain ⟨m, hlocate, -⟩ :=
    @FileSystem.locate_eq_parent_append fs (append t n) (endsInDirectory_append_fileName hn)
  rw [locate_append hn] at hlocate
  exact (List.append_inj' hlocate rfl).1.symm

/-- The text that names lead to from a text. -/
def below (t : Text) (q : List Name) : Text := q.foldl append t

theorem below_concat (t : Text) (q : List Name) (n : Name) :
    below t (q ++ [n]) = append (below t q) n := by
  rw [below, List.foldl_append]
  rfl

theorem below_ne_nil {t : Text} {q : List Name} (ht : t ≠ []) (hq : ∀ n ∈ q, FileName n) :
    below t q ≠ [] := by
  induction q using List.reverseRecOn with
  | nil => exact ht
  | append_singleton q n _ =>
    rw [below_concat]
    exact append_fileName_ne_nil (hq n (by simp))

/-- Names lead below the location of the text. -/
theorem locate_below {q : List Name} (hq : ∀ n ∈ q, FileName n) :
    fs.locate (below t q) = fs.locate t ++ q := by
  induction q using List.reverseRecOn with
  | nil => exact (List.append_nil _).symm
  | append_singleton q n ih =>
    rw [below_concat, locate_append (hq n (by simp)), ih fun m hm => hq m (by simp [hm]),
      List.append_assoc]

end Texts

/-! ### Trees and edits -/

namespace FileSystem

/-- The locations of the file system form a tree. -/
structure Tree (fs : FileSystem) : Prop where
  /-- What is there has file names. -/
  named : ∀ l, fs.node l ≠ none → ∀ n ∈ l, FileName n
  /-- What is there stands in a directory. -/
  closed : ∀ l n, fs.node (l ++ [n]) ≠ none → fs.node l = some .dir
  /-- What is recorded is there: nothing but directories is recorded above the working
  directory. -/
  recorded : ∀ l n, fs.nodes.lookup l = some n → fs.node l = some n

/-- A name as it comes up in a location: one of the working directory's, or a file name. -/
def Spelled (fs : FileSystem) (n : Name) : Prop := n ∈ fs.os.cwd ∨ FileName n

/-- What calls that write at the locations `S` can do. -/
inductive Edits (S : Set Loc) (fs : FileSystem) : FileSystem → Prop
  | refl : Edits S fs fs
  | mkdir {fs' : FileSystem} {d : Loc} {n : Name} (h : Edits S fs fs')
      (hd : fs'.node d = some .dir) (hn : fs'.Spelled n) (hfree : fs'.node (d ++ [n]) = none) :
      Edits S fs (fs'.set (d ++ [n]) .dir)
  | write {fs' : FileSystem} {d : Loc} {n : Name} (h : Edits S fs fs') (b : List UInt8)
      (hd : fs'.node d = some .dir) (hn : fs'.Spelled n)
      (hfree : fs'.node (d ++ [n]) ≠ some .dir) (hS : d ++ [n] ∈ S) :
      Edits S fs (fs'.set (d ++ [n]) (.file b))
  | remove {fs' : FileSystem} {l : Loc} (h : Edits S fs fs') (hfree : fs'.node l ≠ some .dir)
      (hS : l ∈ S) : Edits S fs (fs'.remove l)

/-- The location of the text, if it can be the text of a file. -/
def place (fs : FileSystem) (t : Text) : Set Loc :=
  {l | endsInDirectory t = false ∧ l = fs.locate t}

variable {fs fs' fs'' : FileSystem} {S S' : Set Loc}

theorem place_congr (h : fs'.os = fs.os) (t : Text) : fs'.place t = fs.place t := by
  rw [place, locate_congr h, place]

theorem mem_place_of_canOpenWrite {t : Text} (h : fs.canOpenWrite t = true) :
    fs.locate t ∈ fs.place t := by
  simp only [canOpenWrite, decide_eq_true_eq] at h
  exact ⟨h.2.1, rfl⟩

theorem mem_place_of_stat {t : Text} {b : List UInt8} (h : fs.stat t = .file b) :
    fs.locate t ∈ fs.place t := by
  refine ⟨?_, rfl⟩
  have hnode := node_of_stat h
  unfold stat at h
  rw [hnode] at h
  split at h
  · exact absurd h (by simp)
  split at h
  · exact absurd h (by simp)
  -- a file is not found under another text
  dsimp only at h
  split at h
  · exact absurd h (by simp)
  · next hleaf => exact Bool.not_eq_true _ ▸ hleaf

/-! ### The working directory is always there -/

theorem node_cwd (fs : FileSystem) : fs.node fs.os.cwd = some .dir := if_pos (List.prefix_refl _)

theorem node_root (fs : FileSystem) : fs.node [] = some .dir := if_pos List.nil_prefix

/-- Where no directory is, what is recorded is what is there. -/
theorem lookup_of_node_ne_dir {l : Loc} (h : fs.node l ≠ some .dir) :
    fs.nodes.lookup l = fs.node l := by
  unfold node at h ⊢
  by_cases hc : l <+: fs.os.cwd
  · exact absurd (if_pos hc) h
  · rw [if_neg hc]

/-! ### Locations of texts -/

/-- A name that the walk has met is on the stack it began with, or a proper one of those
walked. -/
theorem mem_walk {ns : List Name} : ∀ {st : List Name} {m : Name},
    m ∈ walk true st ns → m ∈ st ∨ m ∈ ns ∧ Proper m := by
  induction ns with
  | nil => intro st m hm; exact .inl hm
  | cons n ns ih =>
    intro st m hm
    obtain hm | ⟨hm, hproper⟩ := ih hm
    swap
    · exact .inr ⟨List.mem_cons_of_mem n hm, hproper⟩
    unfold LexPath.push at hm
    split at hm
    · exact .inl hm
    next hskip =>
    split at hm
    · -- going up takes a name off, or stays at the root
      split at hm
      · exact absurd hm (by simp)
      · next top htop =>
        split at hm
        · next hdd =>
          -- the stack has a name `..`, and gets another
          have hmem := List.mem_of_getLast? htop
          rw [hdd] at hmem
          rcases List.mem_append.mp hm with hm | hm
          · exact .inl hm
          · rw [List.mem_singleton.mp hm]
            exact .inl hmem
        · exact .inl (List.mem_of_mem_dropLast hm)
    · next hup =>
      rcases List.mem_append.mp hm with hm | hm
      · exact .inl hm
      · obtain rfl := List.mem_singleton.mp hm
        rw [not_or] at hskip
        exact .inr ⟨List.mem_cons_self, hskip.1, hskip.2, hup⟩

theorem spelled_of_mem_walk {t : Text} {ns : List Name} (hns : ∀ n ∈ ns, '/' ∉ n) {m : Name}
    (hm : m ∈ walk true (fs.base t) ns) : fs.Spelled m := by
  obtain hm | ⟨hm, hproper⟩ := mem_walk hm
  · unfold base at hm
    split at hm
    · exact absurd hm (by simp)
    · exact .inl hm
  · exact .inr ⟨hproper, hns m hm⟩

theorem spelled_of_mem_locate {t : Text} {m : Name} (hm : m ∈ fs.locate t) : fs.Spelled m :=
  spelled_of_mem_walk (fun _ hn => not_mem_of_mem_names hn) hm

/-- A text that does not end like a directory is a file name below its parent. -/
theorem exists_fileName {t : Text} (h : endsInDirectory t = false) :
    ∃ n, fs.locate t = fs.parent t ++ [n] ∧ FileName n := by
  obtain ⟨n, hlocate, hlast⟩ := @locate_eq_parent_append fs t h
  refine ⟨n, hlocate, ?_, not_mem_of_mem_names (List.mem_of_getLast? hlast)⟩
  simpa [endsInDirectory, hlast, Proper] using h

/-! ### Trees -/

namespace Tree

theorem spelled (h : fs.Tree) {n : Name} (hn : fs.Spelled n) : FileName n := by
  obtain hn | hn := hn
  · exact h.named _ (by rw [fs.node_cwd]; simp) n hn
  · exact hn

/-- Above what is there are directories. -/
theorem closed_above (h : fs.Tree) {l : Loc} :
    ∀ {r : Loc}, r ≠ [] → fs.node (l ++ r) ≠ none → fs.node l = some .dir := by
  intro r
  induction r using List.reverseRecOn with
  | nil => intro hr _; exact absurd rfl hr
  | append_singleton r n ih =>
    intro _ hnode
    rw [← List.append_assoc] at hnode
    have hdir := h.closed _ _ hnode
    by_cases hr : r = []
    · rw [hr, List.append_nil] at hdir
      exact hdir
    · exact ih hr (by rw [hdir]; simp)

theorem dir_above (h : fs.Tree) {l p : Loc} (hp : p <+: l) (hl : fs.node l = some .dir) :
    fs.node p = some .dir := by
  obtain ⟨r, rfl⟩ := hp
  by_cases hr : r = []
  · rwa [hr, List.append_nil] at hl
  · exact h.closed_above hr (by rw [hl]; simp)

/-- Put a node at a place in a directory that has no directory there. -/
theorem set (h : fs.Tree) {d : Loc} {n : Name} {x : Node} (hd : fs.node d = some .dir)
    (hn : FileName n) (hfree : fs.node (d ++ [n]) ≠ some .dir) : (fs.set (d ++ [n]) x).Tree where
  named l hl m hm := by
    by_cases heq : l = d ++ [n]
    · subst heq
      rcases List.mem_append.mp hm with hm | hm
      · exact h.named d (by rw [hd]; simp) m hm
      · rw [List.mem_singleton.mp hm]
        exact hn
    · rw [node_set_of_ne heq] at hl
      exact h.named l hl m hm
  closed l m hl := by
    have hparent : d ≠ d ++ [n] := by simp
    by_cases heq : l ++ [m] = d ++ [n]
    · obtain ⟨rfl, -⟩ := List.append_inj' heq rfl
      rw [node_set_of_ne hparent]
      exact hd
    · rw [node_set_of_ne heq] at hl
      have hdir := h.closed l m hl
      -- nothing stands below the place
      have hne : l ≠ d ++ [n] := fun hc => hfree (hc ▸ hdir)
      rw [node_set_of_ne hne]
      exact hdir
  recorded l y hl := by
    by_cases heq : l = d ++ [n]
    · subst heq
      rw [node_set_self hfree]
      exact (AList.lookup_insert fs.nodes).symm.trans hl
    · rw [node_set_of_ne heq]
      exact h.recorded l y ((AList.lookup_insert_ne heq).symm.trans hl)

/-- Take away what is no directory. -/
theorem remove (h : fs.Tree) {l : Loc} (hfree : fs.node l ≠ some .dir) : (fs.remove l).Tree where
  named l' hl' := by
    by_cases heq : l' = l
    · rw [heq, node_remove_self hfree] at hl'
      exact absurd rfl hl'
    · rw [node_remove_of_ne heq] at hl'
      exact h.named l' hl'
  closed l' m hl' := by
    by_cases heq : l' ++ [m] = l
    · rw [heq, node_remove_self hfree] at hl'
      exact absurd rfl hl'
    · rw [node_remove_of_ne heq] at hl'
      have hdir := h.closed l' m hl'
      have hne : l' ≠ l := fun hc => hfree (hc ▸ hdir)
      rw [node_remove_of_ne hne]
      exact hdir
  recorded l' y hl' := by
    by_cases heq : l' = l
    · have hnone : (fs.remove l).nodes.lookup l = none := AList.lookup_erase _ _
      rw [heq, hnone] at hl'
      exact absurd hl' (by simp)
    · rw [node_remove_of_ne heq]
      exact h.recorded l' y ((AList.lookup_erase_ne heq).symm.trans hl')

end Tree

/-- The entries below a location are what is recorded below it. -/
theorem mem_entriesBelow {l : Loc} {names : List Name} {x : Node} :
    (names, x) ∈ fs.entriesBelow l ↔ names ≠ [] ∧ fs.nodes.lookup (l ++ names) = some x := by
  unfold entriesBelow
  rw [List.mem_filterMap, ← Option.mem_def, AList.mem_lookup_iff]
  constructor
  · rintro ⟨⟨k, y⟩, hmem, h⟩
    split at h
    · next hbelow =>
      obtain ⟨⟨r, rfl⟩, hne⟩ := hbelow
      simp only [List.drop_left, Option.some.injEq, Prod.mk.injEq] at h
      obtain ⟨rfl, rfl⟩ := h
      refine ⟨?_, hmem⟩
      rintro rfl
      exact hne (List.append_nil l).symm
    · exact absurd h (by simp)
  · rintro ⟨hne, hmem⟩
    refine ⟨_, hmem, ?_⟩
    simp [hne]

/-- In a tree the files among them are the files below the location. -/
theorem Tree.mem_entriesBelow_file (h : fs.Tree) {l : Loc} {names : List Name}
    {b : List UInt8} (hne : names ≠ []) :
    (names, Node.file b) ∈ fs.entriesBelow l ↔ fs.node (l ++ names) = some (.file b) := by
  rw [mem_entriesBelow]
  constructor
  · rintro ⟨-, hlookup⟩
    exact h.recorded _ _ hlookup
  · intro hnode
    have hfree : fs.node (l ++ names) ≠ some .dir := by
      rw [hnode]
      simp
    exact ⟨hne, (lookup_of_node_ne_dir hfree).trans hnode⟩

/-! ### Edits -/

namespace Edits

theorem trans (h : Edits S fs fs') (h' : Edits S fs' fs'') : Edits S fs fs'' := by
  induction h' with
  | refl => exact h
  | mkdir _ hd hn hfree ih => exact ih.mkdir hd hn hfree
  | write _ b hd hn hfree hS ih => exact ih.write b hd hn hfree hS
  | remove _ hfree hS ih => exact ih.remove hfree hS

theorem mono (h : Edits S fs fs') (hS : S ⊆ S') : Edits S' fs fs' := by
  induction h with
  | refl => exact .refl
  | mkdir _ hd hn hfree ih => exact ih.mkdir hd hn hfree
  | write _ b hd hn hfree hmem ih => exact ih.write b hd hn hfree (hS hmem)
  | remove _ hfree hmem ih => exact ih.remove hfree (hS hmem)

theorem os (h : Edits S fs fs') : fs'.os = fs.os := by
  induction h with
  | refl => rfl
  | mkdir _ _ _ _ ih => exact ih
  | write _ _ _ _ _ _ ih => exact ih
  | remove _ _ _ ih => exact ih

/-- **Outside `S` no file changes.** -/
theorem filesAgree (h : Edits S fs fs') : FilesAgree S fs fs' := by
  induction h with
  | refl => exact .refl S fs
  | @mkdir fs' d n _ _ _ hfree ih =>
    refine ⟨ih.os, fun l hl b => ?_⟩
    rw [← ih.file l hl b]
    -- where the directory is made there was no file
    by_cases heq : l = d ++ [n]
    · rw [heq, node_set_self (by rw [hfree]; simp), hfree]
      simp
    · rw [node_set_of_ne heq]
  | write _ b _ _ _ hS ih => exact ih.trans (.set _ hS)
  | remove _ _ hS ih => exact ih.trans (.remove hS)

/-- Where nothing is written, the files stay. -/
theorem fileAt_eq (h : Edits ∅ fs fs') : fs'.fileAt = fs.fileAt :=
  funext fun _ => h.filesAgree.fileAt fun hc => hc.elim

/-- A directory stays one. -/
theorem dir (h : Edits S fs fs') {l : Loc} (hl : fs.node l = some .dir) :
    fs'.node l = some .dir := by
  induction h with
  | refl => exact hl
  | @mkdir fs' d n _ _ _ hfree ih =>
    rwa [node_set_of_ne]
    rintro rfl
    rw [hfree] at ih
    exact absurd ih (by simp)
  | @write fs' d n _ b _ _ hfree _ ih =>
    rwa [node_set_of_ne]
    rintro rfl
    exact hfree ih
  | @remove fs' l' _ hfree _ ih =>
    rwa [node_remove_of_ne]
    rintro rfl
    exact hfree ih

/-- **A tree stays a tree.** -/
theorem tree (h : Edits S fs fs') (ht : fs.Tree) : fs'.Tree := by
  induction h with
  | refl => exact ht
  | mkdir _ hd hn hfree ih => exact ih.set hd (ih.spelled hn) (by rw [hfree]; simp)
  | write _ b hd hn hfree _ ih => exact ih.set hd (ih.spelled hn) hfree
  | remove _ hfree _ ih => exact ih.remove hfree

theorem mkdirsBelow {ns : List Name} :
    ∀ {fs : FileSystem} {done : Loc}, fs.node done = some .dir → (∀ n ∈ ns, fs.Spelled n) →
      Edits S fs (FileSystem.mkdirsBelow fs done ns).1 := by
  induction ns with
  | nil => intro fs done _ _; exact .refl
  | cons n ns ih =>
    intro fs done hdone hns
    have hn := hns n List.mem_cons_self
    have hrest : ∀ m ∈ ns, fs.Spelled m := fun m hm => hns m (List.mem_cons_of_mem n hm)
    unfold FileSystem.mkdirsBelow
    split
    · next hdir => exact ih hdir hrest
    · exact .refl
    · next hnone =>
      split
      · exact .refl
      · have hmade : Edits S fs (fs.set (done ++ [n]) .dir) := Edits.refl.mkdir hdone hn hnone
        exact hmade.trans (ih (node_set_self (by rw [hnone]; simp)) hrest)

theorem mkdirs {l : Loc} (hl : ∀ n ∈ l, fs.Spelled n) : Edits S fs (fs.mkdirs l).1 := by
  unfold FileSystem.mkdirs
  split
  · exact .refl
  · exact mkdirsBelow fs.node_root hl

/-- A file that can be opened for writing is written. -/
theorem set {t : Text} (hopen : fs.canOpenWrite t = true) (hS : fs.locate t ∈ S)
    (b : List UInt8) : Edits S fs (fs.set (fs.locate t) (.file b)) := by
  unfold canOpenWrite at hopen
  rw [decide_eq_true_eq] at hopen
  obtain ⟨-, hleaf, hparent, hfree, -⟩ := hopen
  obtain ⟨n, hlocate, hn⟩ := @exists_fileName fs t hleaf
  rw [hlocate] at hS hfree ⊢
  exact Edits.refl.write b hparent (.inr hn) hfree hS

theorem openTruncate {t : Text} (h : fs.openTruncate t = some fs') (hS : fs.locate t ∈ S) :
    Edits S fs fs' := by
  have hopen := (canOpenWrite_of_openTruncate h).1
  obtain ⟨rfl, -⟩ := openTruncate_eq_some h
  exact .set hopen hS []

theorem pwrite {t : Text} {off : ℕ} {data : List UInt8} (hopen : fs.canOpenWrite t = true)
    (h : fs.pwrite t off data = some fs') (hS : fs.locate t ∈ S) : Edits S fs fs' := by
  rw [pwrite_eq_some h]
  exact .set hopen hS _

theorem torn {t : Text} (off : ℕ) (data : List UInt8) (hopen : fs.canOpenWrite t = true)
    (hS : fs.locate t ∈ S) : Edits S fs (fs.torn t off data) := by
  unfold FileSystem.torn
  split
  · exact .refl
  · exact .set hopen hS _

theorem rename {src dst : Text} (h : fs.rename src dst = some fs') (hsrc : fs.locate src ∈ S)
    (hdst : fs.locate dst ∈ S) : Edits S fs fs' := by
  unfold FileSystem.rename at h
  split at h
  · next b hb =>
    split at h
    · next hplace =>
      obtain ⟨-, hleaf, hparent, hfree, -⟩ := hplace
      have hnode := node_of_stat hb
      have hfile : fs.node (fs.locate src) ≠ some .dir := by
        rw [hnode]
        simp
      have htaken : Edits S fs (fs.remove (fs.locate src)) := Edits.refl.remove hfile hsrc
      obtain ⟨n, hlocate, hn⟩ := @exists_fileName fs dst hleaf
      rw [← Option.some.inj h]
      rw [hlocate] at hdst hfree ⊢
      refine htaken.write b ?_ (.inr hn) ?_ hdst
      · -- the directory is not the file that was taken away
        have hne : fs.parent dst ≠ fs.locate src := fun hc => hfile (hc ▸ hparent)
        rw [node_remove_of_ne hne]
        exact hparent
      · by_cases heq : fs.parent dst ++ [n] = fs.locate src
        · rw [heq, node_remove_self hfile]
          simp
        · rw [node_remove_of_ne heq]
          exact hfree
    · exact absurd h (by simp)
  · exact absurd h (by simp)

end Edits

theorem Tree.mkdirs (h : fs.Tree) {l : Loc} (hl : ∀ n ∈ l, fs.Spelled n) : (fs.mkdirs l).1.Tree :=
  (Edits.mkdirs (S := ∅) hl).tree h

theorem Tree.write (h : fs.Tree) {t : Text} (hopen : fs.canOpenWrite t = true) (b : List UInt8) :
    (fs.set (fs.locate t) (.file b)).Tree :=
  (Edits.set (S := Set.univ) hopen trivial b).tree h

/-! ### A disk with one file -/

/-- A disk with nothing on it. -/
def blank : FileSystem := ⟨∅, Os.calm⟩

theorem node_blank (l : Loc) : blank.node l = if l = [] then some .dir else none := by
  have hcwd : l <+: blank.os.cwd ↔ l = [] := List.prefix_nil
  unfold node
  simp only [hcwd]
  rfl

theorem tree_blank : blank.Tree where
  named l hl n hn := by
    rw [node_blank] at hl
    split at hl
    · next heq =>
      rw [heq] at hn
      exact absurd hn (by simp)
    · exact absurd rfl hl
  closed l n hl := by
    rw [node_blank, if_neg (by simp)] at hl
    exact absurd rfl hl
  recorded l n hl := absurd hl (by simp [blank])

theorem tree_single {dir name : Name} (content : Option (List UInt8)) (hdir : FileName dir)
    (hname : FileName name) : (single dir name content).Tree := by
  have hmade : (single dir name none).Tree :=
    tree_blank.set (d := []) (node_root _) hdir (by simp [node_blank])
  cases content with
  | none => exact hmade
  | some b =>
    refine hmade.set (d := [dir]) ?_ hname (node_single_ne_dir dir name none name)
    simp [node_single]

end FileSystem

end Fs
