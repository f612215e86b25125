import AdaptiveSync.Lib.FsTree

/-!
# Symbolic and hard links

A disk with links is a disk without links and the tables of its links (`Links`): the text in
each symbolic link, and for a file with several names the one that it is recorded under.
Nothing here makes, replaces or removes a link, so the tables stay as they are.

A text is walked name by name. At a symbolic link the walk goes on with the text of the link,
and gives up after `maxLinks` of them (`follow`). A call that follows links is the call on the
disk without links at the text of the place that the walk has come to (`real`). Only `mkdir`
does not follow the last name (`ensureDir`).

* `follow_concat` and `follow_ne_none`: one name more goes one step further, if it is no link.
* `WellFormed`: links and further names stand in directories, where nothing else is. What is
  found is then found in a directory (`found_of_append`).
* `follow_empty`: without links, names lead where they lead on the disk without links.
-/

namespace Fs

open LexPath

/-- What stands under a text. A file is not found under a text that ends like a directory. -/
def FileSystem.found (fs : FileSystem) (t : Text) : Option Node :=
  if t = [] then none
  else
    match fs.node (fs.locate t) with
    | none => none
    | some .dir => some .dir
    | some (.file b) => if endsInDirectory t then none else some (.file b)

namespace FileSystem

variable {fs : FileSystem} {t : Text} {b : List UInt8}

/-- What can be looked up is reported. -/
theorem stat_of_found (hne : t ≠ []) (h : fs.os.fails .stat (fs.locate t) = false) :
    fs.stat t = match fs.found t with
      | none => .notFound
      | some .dir => .dir
      | some (.file b) => .file b := by
  unfold stat found
  rw [if_neg hne, if_neg hne, if_neg (by simp [h])]
  cases fs.node (fs.locate t) with
  | none => rfl
  | some x =>
    cases x with
    | dir => rfl
    | file b => dsimp only; split <;> rfl

theorem stat_of_found_file (h : fs.os.fails .stat (fs.locate t) = false)
    (hfound : fs.found t = some (.file b)) : fs.stat t = .file b := by
  rw [stat_of_found (by rintro rfl; exact absurd hfound (by simp [found])) h, hfound]

theorem stat_of_found_dir (h : fs.os.fails .stat (fs.locate t) = false)
    (hfound : fs.found t = some .dir) : fs.stat t = .dir := by
  rw [stat_of_found (by rintro rfl; exact absurd hfound (by simp [found])) h, hfound]

/-- What is reported can be looked up. -/
theorem found_of_stat_file (h : fs.stat t = .file b) :
    fs.os.fails .stat (fs.locate t) = false ∧ fs.found t = some (.file b) := by
  have hne : t ≠ [] := by
    rintro rfl
    exact absurd h (by simp [stat])
  have hfails : fs.os.fails .stat (fs.locate t) = false := by
    by_contra hc
    rw [stat, if_neg hne, if_pos (by simpa using hc)] at h
    exact absurd h (by simp)
  refine ⟨hfails, ?_⟩
  rw [stat_of_found hne hfails] at h
  split at h
  · exact absurd h (by simp)
  · exact absurd h (by simp)
  · next hfound => rw [hfound, Stat.file.inj h]

theorem ne_nil_of_found (h : fs.found t ≠ none) : t ≠ [] := by
  rintro rfl
  exact h rfl

theorem node_of_found {x : Node} (h : fs.found t = some x) : fs.node (fs.locate t) = some x := by
  have hne : t ≠ [] := ne_nil_of_found (by rw [h]; simp)
  unfold found at h
  rw [if_neg hne] at h
  split at h
  · exact absurd h (by simp)
  · next hnode => rw [hnode, h]
  · next b hnode =>
    split at h
    · exact absurd h (by simp)
    · rw [hnode, h]

theorem found_eq_dir_iff :
    fs.found t = some .dir ↔ t ≠ [] ∧ fs.node (fs.locate t) = some .dir := by
  constructor
  · exact fun h => ⟨ne_nil_of_found (by rw [h]; simp), node_of_found h⟩
  · rintro ⟨hne, hnode⟩
    rw [found, if_neg hne, hnode]

theorem found_of_stat_dir (h : fs.stat t = .dir) :
    fs.os.fails .stat (fs.locate t) = false ∧ fs.found t = some .dir := by
  obtain ⟨hne, hfails, hnode⟩ := stat_eq_dir_iff.mp h
  exact ⟨hfails, found_eq_dir_iff.mpr ⟨hne, hnode⟩⟩

/-- A file is found where there is one, under a text that can be one of a file. -/
theorem found_eq_file_iff : fs.found t = some (.file b) ↔
    (t ≠ [] ∧ endsInDirectory t = false) ∧ fs.fileAt (fs.locate t) = some b := by
  rw [fileAt_eq_some_iff]
  constructor
  · intro h
    have hne : t ≠ [] := ne_nil_of_found (by rw [h]; simp)
    have hnode := node_of_found h
    refine ⟨⟨hne, ?_⟩, hnode⟩
    by_contra hdir
    rw [found, if_neg hne, hnode] at h
    exact absurd h (by simp [hdir])
  · rintro ⟨⟨hne, hleaf⟩, hnode⟩
    rw [found, if_neg hne, hnode]
    simp [hleaf]

/-- On a disk without links, what is found under a name is found in a directory. -/
theorem Tree.found_of_append (htree : fs.Tree) (ht : t ≠ []) {n : Name} (hn : FileName n)
    (hfound : fs.found (append t n) ≠ none) : fs.found t = some .dir := by
  obtain ⟨x, hx⟩ := Option.ne_none_iff_exists'.mp hfound
  have hnode := node_of_found hx
  rw [locate_append hn] at hnode
  exact found_eq_dir_iff.mpr ⟨ht, htree.closed _ n (by rw [hnode]; simp)⟩

end FileSystem

theorem intercalate_concat {ns : List Name} (hne : ns ≠ []) (n : Name) :
    ['/'].intercalate (ns ++ [n]) = ['/'].intercalate ns ++ '/' :: n := by
  induction ns with
  | nil => exact absurd rfl hne
  | cons m ns ih =>
    rw [List.cons_append, List.intercalate_cons_of_ne_nil (by simp)]
    cases ns with
    | nil => simp
    | cons k ns =>
      rw [ih (by simp), List.intercalate_cons_of_ne_nil (List.cons_ne_nil k ns)]
      simp

/-- The links of a disk. -/
structure Links where
  /-- The text in the symbolic link at a location. -/
  symbolic : Loc → Option Text
  /-- Where the file is recorded that has a name at a location. -/
  hard : Loc → Loc
  hard_hard : ∀ l, hard (hard l) = hard l

/-- How many symbolic links are followed for one text. -/
def maxLinks : ℕ := 40

namespace Links

variable (links : Links)

/-- No links. -/
def empty : Links := ⟨fun _ => none, id, fun _ => rfl⟩

/-- One symbolic link. -/
def single (l : Loc) (t : Text) : Links :=
  ⟨fun l' => if l' = l then some t else none, id, fun _ => rfl⟩

/-- The text of the symbolic link of a name in a directory. -/
def linkAt (l : Loc) (n : Name) : Option Text :=
  if Proper n then links.symbolic (l ++ [n]) else none

/-- Walk names up to the first symbolic link; `jump` goes on from there. The result says
whether the last name stands for a directory. -/
def walkTo (jump : Loc → List Name → Option (Loc × Bool)) :
    Loc → Bool → List Name → Option (Loc × Bool)
  | l, d, [] => some (l, d)
  | l, _, n :: ns =>
    match links.linkAt l n with
    | none => walkTo jump (push true l n) (!decide (Proper n)) ns
    | some target => jump (if isAbsolute target then [] else l) (names target ++ ns)

/-- Walk names through symbolic links, at most as many as the budget. -/
def follow : ℕ → Loc → List Name → Option (Loc × Bool)
  | 0, l, ns => links.walkTo (fun _ _ => none) l false ns
  | budget + 1, l, ns => links.walkTo (follow budget) l false ns

/-- Where names lead from a location. -/
def resolve (l : Loc) (ns : List Name) : Option (Loc × Bool) := links.follow maxLinks l ns

/-- The text of a location, one that ends like a directory or one that does not. -/
def textOf (l : Loc) (d : Bool) : Text :=
  '/' :: ['/'].intercalate l ++ if d then ['/'] else []

/-- The text at which a call is made that follows the links of a text, empty when there are too
many of them. -/
def real (fs : FileSystem) (t : Text) : Text :=
  if t = [] then []
  else
    match links.resolve (fs.base t) (names t) with
    | none => []
    | some (l, d) => textOf (links.hard l) d

example : (single [['a'], ['l']] "../s".toList).real .blank "/a/l/x".toList = "/s/x".toList := by
  decide
example : (single [['l']] "l/".toList).real .blank "/l".toList = [] := by decide

/-- One step of `create_dir_all`: there is a directory behind the names, or `mkdir` makes one in
the place of the last of them. -/
def ensureDir (fs : FileSystem) (base : Loc) (ns : List Name) (n : Name) : FileSystem × Bool :=
  match links.resolve base ns, links.resolve base (ns ++ [n]) with
  | some (d, _), some (l, _) =>
    if fs.node (links.hard l) = some .dir then (fs, true)
    -- `mkdir` does not follow a link that leads nowhere
    else if Proper n ∧ links.symbolic (d ++ [n]) = none ∧
        fs.node (links.hard (d ++ [n])) = none ∧ fs.node d = some .dir then
      fs.mkdirs (d ++ [n])
    else (fs, false)
  | _, _ => (fs, false)

/-- Directories along the names, first to last. -/
def ensureDirs (base : Loc) : FileSystem → List Name → List Name → FileSystem × Bool
  | fs, _, [] => (fs, true)
  | fs, done, n :: ns =>
    match links.ensureDir fs base done n with
    | (fs, true) => ensureDirs base fs (done ++ [n]) ns
    | (fs, false) => (fs, false)

/-- `create_dir_all`. -/
def mkdirs (fs : FileSystem) (t : Text) : FileSystem × Bool :=
  links.ensureDirs (fs.base t) fs [] (names t)

variable {links} {fs fs' : FileSystem} {l : Loc} {ns : List Name} {n : Name} {t : Text}

theorem real_congr (h : fs'.os = fs.os) : links.real fs' = links.real fs := by
  funext t
  unfold real FileSystem.base
  rw [h]

/-! ### One name more -/

section Walk

variable {jump : Loc → List Name → Option (Loc × Bool)}

/-- A walk with one name more has come to where that name is walked. -/
theorem walkTo_ne_none (hjump : ∀ l ns, jump l (ns ++ [n]) ≠ none → jump l ns ≠ none) :
    ∀ {l : Loc} {d : Bool}, links.walkTo jump l d (ns ++ [n]) ≠ none →
      links.walkTo jump l d ns ≠ none := by
  induction ns with
  | nil => intro l d _; simp [walkTo]
  | cons m ns ih =>
    intro l d h
    unfold walkTo at h ⊢
    rw [List.cons_append] at h
    dsimp only at h ⊢
    split at h
    · exact ih h
    · rw [← List.append_assoc] at h
      exact hjump _ _ h

/-- A name that is no link is one step. -/
theorem walkTo_concat (hjump : ∀ l ns r, jump l ns = some r → links.linkAt r.1 n = none →
      jump l (ns ++ [n]) = some (push true r.1 n, !decide (Proper n))) :
    ∀ {l : Loc} {d : Bool} {r : Loc × Bool}, links.walkTo jump l d ns = some r →
      links.linkAt r.1 n = none →
        links.walkTo jump l d (ns ++ [n]) = some (push true r.1 n, !decide (Proper n)) := by
  induction ns with
  | nil =>
    intro l d r h hlink
    obtain rfl := Option.some.inj h
    simp [walkTo, hlink]
  | cons m ns ih =>
    intro l d r h hlink
    unfold walkTo at h ⊢
    -- behind a link the name is still the last one
    rw [List.cons_append]
    dsimp only at h ⊢
    split at h
    · exact ih h hlink
    · rw [← List.append_assoc]
      exact hjump _ _ _ h hlink

end Walk

theorem follow_ne_none (budget : ℕ) :
    ∀ {l : Loc} {ns : List Name}, links.follow budget l (ns ++ [n]) ≠ none →
      links.follow budget l ns ≠ none := by
  induction budget with
  | zero => exact fun h => walkTo_ne_none (fun _ _ hc => absurd rfl hc) h
  | succ budget ih => exact fun h => walkTo_ne_none (fun _ _ => ih) h

theorem follow_concat (budget : ℕ) :
    ∀ {l : Loc} {ns : List Name} {r : Loc × Bool}, links.follow budget l ns = some r →
      links.linkAt r.1 n = none →
        links.follow budget l (ns ++ [n]) = some (push true r.1 n, !decide (Proper n)) := by
  induction budget with
  | zero => exact fun h => walkTo_concat (fun _ _ _ hc => absurd hc (by simp)) h
  | succ budget ih => exact fun h => walkTo_concat (fun _ _ _ => ih) h

/-- Without links, names lead where they lead on the disk without links. -/
theorem follow_empty (budget : ℕ) (base : Loc) (ns : List Name) :
    ∃ d, empty.follow budget base ns = some (walk true base ns, d) := by
  induction ns using List.reverseRecOn with
  | nil =>
    cases budget with
    | zero => exact ⟨false, rfl⟩
    | succ budget => exact ⟨false, rfl⟩
  | append_singleton ns n ih =>
    obtain ⟨d, hd⟩ := ih
    have hnone : empty.linkAt (walk true base ns) n = none := by
      unfold linkAt
      split <;> rfl
    exact ⟨_, by rw [follow_concat budget hd hnone, walk_append]; rfl⟩

/-- A text that leads somewhere with a name behind it does so without. -/
theorem exists_resolve (hn : FileName n)
    (h : links.resolve (fs.base (append t n)) (names (append t n)) ≠ none) :
    ∃ l d, links.resolve (fs.base t) (names t) = some (l, d) := by
  obtain ⟨init, happend, hinit⟩ := @names_append_fileName t n hn
  rw [base_append_fileName hn, happend] at h
  obtain ⟨⟨l, d⟩, hl⟩ := Option.ne_none_iff_exists'.mp (follow_ne_none _ h)
  obtain hinit | hinit := hinit
  · exact ⟨l, d, by rw [hinit]; exact hl⟩
  · -- the empty name at the end leads nowhere
    exact ⟨_, _, by rw [hinit]; exact follow_concat maxLinks hl rfl⟩

/-- A file name that is no link leads one step further. -/
theorem resolve_append (hn : FileName n) {d : Bool}
    (h : links.resolve (fs.base t) (names t) = some (l, d))
    (hlink : links.linkAt l n = none) :
    links.resolve (fs.base (append t n)) (names (append t n)) = some (l ++ [n], false) := by
  obtain ⟨init, happend, hinit⟩ := @names_append_fileName t n hn
  have hshort : ∃ d, links.resolve (fs.base t) init = some (l, d) := by
    obtain hinit | hinit := hinit
    · exact ⟨d, hinit ▸ h⟩
    · rw [hinit] at h
      -- the empty name at the end is one step that leads nowhere
      obtain ⟨⟨l', d'⟩, hl'⟩ := Option.ne_none_iff_exists'.mp
        (follow_ne_none maxLinks (by rw [show links.follow _ _ _ = _ from h]; simp))
      have hsame := (follow_concat maxLinks hl' rfl).symm.trans h
      exact ⟨d', by rw [← (Prod.mk.inj (Option.some.inj hsame)).1]; exact hl'⟩
  obtain ⟨d', hd'⟩ := hshort
  have hstep := follow_concat maxLinks hd' hlink
  rw [push_proper true _ hn.1] at hstep
  rw [base_append_fileName hn, happend]
  exact hstep.trans (by simp [hn.1])

/-- So do several. -/
theorem resolve_below {q : List Name} (hq : ∀ n ∈ q, FileName n) {d : Bool}
    (h : links.resolve (fs.base t) (names t) = some (l, d))
    (hlinks : ∀ p n, p ++ [n] <+: q → links.symbolic (l ++ (p ++ [n])) = none) :
    ∃ d, links.resolve (fs.base (below t q)) (names (below t q)) = some (l ++ q, d) := by
  induction q using List.reverseRecOn with
  | nil => exact ⟨d, by rw [List.append_nil]; exact h⟩
  | append_singleton q n ih =>
    obtain ⟨d', hd'⟩ := ih (fun m hm => hq m (by simp [hm]))
      fun p m hp => hlinks p m (hp.trans (List.prefix_append q [n]))
    have hn : FileName n := hq n (by simp)
    refine ⟨false, ?_⟩
    rw [below_concat, ← List.append_assoc]
    refine resolve_append hn hd' ?_
    -- the link would stand at a place below the first one
    rw [linkAt, if_pos hn.1, List.append_assoc]
    exact hlinks q n (List.prefix_refl _)

/-! ### The text of a place -/

/-- The text of a location leads there. -/
theorem locate_textOf (hl : ∀ n ∈ l, FileName n) (d : Bool) : fs.locate (textOf l d) = l := by
  have hproper : walk true [] (names (['/'].intercalate l)) = l := by
    cases l with
    | nil => rfl
    | cons n l =>
      rw [names, List.splitOn_intercalate _ (fun m hm => (hl m hm).2) (by simp),
        walk_proper true _ fun m hm => (hl m hm).1]
      rfl
  have hnames : names ('/' :: ['/'].intercalate l) = [] :: names (['/'].intercalate l) :=
    names_append_sep [] _
  have hwalk : walk true [] (names (textOf l d)) = l := by
    unfold textOf
    cases d with
    | false =>
      simp only [Bool.false_eq_true, if_false, List.append_nil, hnames]
      exact hproper
    | true =>
      -- the separator at the end leads nowhere
      simp only [if_true]
      rw [names_append_sep ('/' :: ['/'].intercalate l) [], hnames, walk_append]
      exact hproper
  exact hwalk

/-- The text of a location leads to a place of that name. -/
theorem locate_textOf_concat (hn : FileName n) :
    ∃ l', fs.locate (textOf (l ++ [n]) false) = l' ++ [n] := by
  have hnames : ∃ ns, names (textOf (l ++ [n]) false) = ns ++ [n] := by
    -- the separator before the name is the last one of the text
    have hsingle : names n = [n] := List.splitOn_eq_singleton hn.2
    simp only [textOf, Bool.false_eq_true, if_false, List.append_nil]
    by_cases hl : l = []
    · rw [hl, List.nil_append, List.intercalate_singleton]
      exact ⟨_, (names_append_sep [] n).trans (by rw [hsingle])⟩
    · rw [intercalate_concat hl]
      exact ⟨_, (names_append_sep ('/' :: ['/'].intercalate l) n).trans (by rw [hsingle])⟩
  obtain ⟨ns, hns⟩ := hnames
  refine ⟨walk true (fs.base (textOf (l ++ [n]) false)) ns, ?_⟩
  rw [FileSystem.locate, hns, walk_append]
  exact push_proper true _ hn.1

theorem textOf_ne_nil (l : Loc) (d : Bool) : textOf l d ≠ [] := by
  unfold textOf
  split <;> simp

/-! ### Names of places -/

/-- The names of a place are those of the location it is walked from, and file names. -/
theorem mem_walkTo {jump : Loc → List Name → Option (Loc × Bool)} {base : Loc}
    (hjump : ∀ {l ns r}, (∀ m ∈ l, m ∈ base ∨ FileName m) → (∀ m ∈ ns, '/' ∉ m) →
      jump l ns = some r → ∀ m ∈ r.1, m ∈ base ∨ FileName m)
    (hns : ∀ m ∈ ns, '/' ∉ m) :
    ∀ {l : Loc} {d : Bool} {r : Loc × Bool}, (∀ m ∈ l, m ∈ base ∨ FileName m) →
      links.walkTo jump l d ns = some r → ∀ m ∈ r.1, m ∈ base ∨ FileName m := by
  induction ns with
  | nil =>
    intro l d r hl h
    obtain rfl := Option.some.inj h
    exact hl
  | cons n ns ih =>
    intro l d r hl h
    obtain ⟨hn, hns'⟩ := List.forall_mem_cons.mp hns
    unfold walkTo at h
    split at h
    · refine ih hns' (fun m hm => ?_) h
      obtain hm | ⟨hm, hproper⟩ := @FileSystem.mem_walk [n] l m hm
      · exact hl m hm
      · exact .inr ⟨hproper, List.mem_singleton.mp hm ▸ hn⟩
    · next target _ =>
      refine hjump (fun m hm => ?_) (fun m hm => ?_) h
      · split at hm
        · exact absurd hm (by simp)
        · exact hl m hm
      · obtain hm | hm := List.mem_append.mp hm
        · exact not_mem_of_mem_names hm
        · exact hns' m hm

theorem mem_follow (budget : ℕ) {base : Loc} :
    ∀ {l : Loc} {ns : List Name} {r : Loc × Bool}, (∀ m ∈ l, m ∈ base ∨ FileName m) →
      (∀ m ∈ ns, '/' ∉ m) → links.follow budget l ns = some r →
        ∀ m ∈ r.1, m ∈ base ∨ FileName m := by
  induction budget with
  | zero => exact fun hl hns h => mem_walkTo (fun _ _ hc => absurd hc (by simp)) hns hl h
  | succ budget ih => exact fun hl hns h => mem_walkTo ih hns hl h

/-- The names that a text leads to come up in locations. -/
theorem spelled_of_resolve (hns : ∀ m ∈ ns, '/' ∉ m) {r : Loc × Bool}
    (h : links.resolve (fs.base t) ns = some r) {m : Name} (hm : m ∈ r.1) : fs.Spelled m := by
  have hbase : ∀ m ∈ fs.base t, m ∈ fs.os.cwd ∨ FileName m := by
    intro m hm
    unfold FileSystem.base at hm
    split at hm
    · exact absurd hm (by simp)
    · exact .inl hm
  exact mem_follow maxLinks hbase hns h m hm

/-! ### Directories -/

theorem edits_ensureDir {t : Text} (hns : ∀ m ∈ ns, '/' ∉ m) (hn : '/' ∉ n) :
    fs.Edits ∅ (links.ensureDir fs (fs.base t) ns n).1 := by
  unfold ensureDir
  split
  · next d _ l _ hd _ =>
    split
    · exact .refl
    split
    · next hmake =>
      refine FileSystem.Edits.mkdirs fun m hm => ?_
      obtain hm | hm := List.mem_append.mp hm
      · exact spelled_of_resolve hns hd hm
      · rw [List.mem_singleton.mp hm]
        exact .inr ⟨hmake.1, hn⟩
    · exact .refl
  · exact .refl

theorem edits_ensureDirs {base : Loc} {t : Text} :
    ∀ {ns done : List Name} {fs : FileSystem}, fs.base t = base → (∀ m ∈ done, '/' ∉ m) →
      (∀ m ∈ ns, '/' ∉ m) → fs.Edits ∅ (links.ensureDirs base fs done ns).1 := by
  intro ns
  induction ns with
  | nil => intro done fs _ _ _; exact .refl
  | cons n ns ih =>
    intro done fs hbase hdone hns
    obtain ⟨hn, hns'⟩ := List.forall_mem_cons.mp hns
    have hstep : fs.Edits ∅ (links.ensureDir fs base done n).1 :=
      hbase ▸ edits_ensureDir hdone hn
    unfold ensureDirs
    split
    · next fs₁ hmade =>
      rw [hmade] at hstep
      -- what was made does not change where a text starts from
      refine hstep.trans (ih ?_ (fun m hm => ?_) hns')
      · rw [← hbase, FileSystem.base, FileSystem.base, hstep.os]
      · obtain hm | hm := List.mem_append.mp hm
        · exact hdone m hm
        · exact List.mem_singleton.mp hm ▸ hn
    · next fs₁ hmade =>
      rw [hmade] at hstep
      exact hstep

/-- **Nothing but directories is made.** -/
theorem edits_mkdirs (links : Links) (fs : FileSystem) (t : Text) :
    fs.Edits ∅ (links.mkdirs fs t).1 :=
  edits_ensureDirs rfl (by simp) fun _ hm => not_mem_of_mem_names hm

/-! ### Well-formed links -/

/-- Links and further names stand in directories, and nothing is recorded where they stand. -/
structure WellFormed (links : Links) (fs : FileSystem) : Prop where
  symbolic : ∀ l n, links.symbolic (l ++ [n]) ≠ none →
    fs.node l = some .dir ∧ fs.node (l ++ [n]) = none
  name : ∀ l n, links.hard (l ++ [n]) ≠ l ++ [n] → fs.node l = some .dir
  /-- Only files have several names. -/
  file : ∀ l, links.hard l ≠ l → fs.node l = none ∧ ∃ b, fs.node (links.hard l) = some (.file b)

theorem wellFormed_empty (fs : FileSystem) : empty.WellFormed fs :=
  ⟨fun _ _ h => absurd rfl h, fun _ _ h => absurd rfl h, fun _ h => absurd rfl h⟩

theorem wellFormed_single (hdir : fs.node l = some .dir) (hfree : fs.node (l ++ [n]) = none) :
    (single (l ++ [n]) t).WellFormed fs := by
  refine ⟨fun l' n' h => ?_, fun _ _ h => absurd rfl h, fun _ h => absurd rfl h⟩
  have heq : l' ++ [n'] = l ++ [n] := by
    by_contra hne
    exact h (if_neg hne)
  rw [heq, (List.append_inj' heq rfl).1]
  exact ⟨hdir, hfree⟩

namespace WellFormed

/-- What is recorded at a location is the file of that name. -/
theorem hard_of_node (h : links.WellFormed fs) (hl : fs.node l ≠ none) : links.hard l = l := by
  by_contra hne
  exact hl (h.file l hne).1

/-- What stands under a name stands in a directory. -/
theorem dir_of_name (h : links.WellFormed fs) (htree : fs.Tree)
    (hnode : fs.node (links.hard (l ++ [n])) ≠ none) : fs.node l = some .dir := by
  by_cases hself : links.hard (l ++ [n]) = l ++ [n]
  · rw [hself] at hnode
    exact htree.closed l n hnode
  · exact h.name l n hself

/-- The text of a place leads there. -/
theorem locate_real (h : links.WellFormed fs) (htree : fs.Tree) (ht : t ≠ []) {d : Bool}
    (hplace : links.resolve (fs.base t) (names t) = some (l, d)) :
    links.real fs t = textOf (links.hard l) d ∧ fs.locate (links.real fs t) = links.hard l := by
  have hreal : links.real fs t = textOf (links.hard l) d := by
    unfold real
    rw [if_neg ht, hplace]
  refine ⟨hreal, hreal ▸ locate_textOf ?_ d⟩
  by_cases hself : links.hard l = l
  · rw [hself]
    exact fun n hn => htree.spelled
      (spelled_of_resolve (fun _ hm => not_mem_of_mem_names hm) hplace hn)
  · obtain ⟨-, b, hb⟩ := h.file l hself
    exact htree.named _ (by rw [hb]; simp)

/-- **What is found under a name is found in a directory.** -/
theorem found_of_append (h : links.WellFormed fs) (htree : fs.Tree) (ht : t ≠ [])
    (hn : FileName n) (hfound : fs.found (links.real fs (append t n)) ≠ none) :
    fs.found (links.real fs t) = some .dir := by
  have hne := @append_fileName_ne_nil t n hn
  obtain ⟨l, d, hplace⟩ : ∃ l d, links.resolve (fs.base t) (names t) = some (l, d) := by
    refine exists_resolve hn fun hc => hfound ?_
    rw [real, if_neg hne, hc]
    rfl
  have hdir : fs.node l = some .dir := by
    -- a link stands in a directory, and so does what is recorded under a name
    cases hlink : links.linkAt l n with
    | some target =>
      rw [linkAt, if_pos hn.1] at hlink
      exact (h.symbolic l n (by rw [hlink]; simp)).1
    | none =>
      obtain ⟨x, hx⟩ := Option.ne_none_iff_exists'.mp hfound
      have hnode := FileSystem.node_of_found hx
      rw [(h.locate_real htree hne (resolve_append hn hplace hlink)).2] at hnode
      exact h.dir_of_name htree (by rw [hnode]; simp)
  obtain ⟨hreal, hlocate⟩ := h.locate_real htree ht hplace
  rw [h.hard_of_node (by rw [hdir]; simp)] at hreal hlocate
  rw [FileSystem.found, if_neg (by rw [hreal]; exact textOf_ne_nil _ _), hlocate, hdir]

end WellFormed

/-- Without links, calls are made where they are made on the disk without links. -/
theorem locate_real_empty (htree : fs.Tree) (ht : t ≠ []) :
    fs.locate (empty.real fs t) = fs.locate t := by
  obtain ⟨d, hd⟩ := follow_empty maxLinks (fs.base t) (names t)
  exact ((wellFormed_empty fs).locate_real htree ht hd).2

end Links

end Fs
