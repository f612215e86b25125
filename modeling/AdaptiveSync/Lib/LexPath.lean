import Mathlib.Data.List.Infix
import Mathlib.Tactic.Tauto

/-!
# Lexical paths

The part of `std::filesystem::path` that never looks at a disk, in its C++17 POSIX
reading: `/` is the only separator, there are no root names, and a path is its
text.

A text is cut at its separators and the names are walked from left to right over a
stack (`push`): empty names and `.` are skipped, `..` pops a name, a `..` that has
nothing to pop stays in a relative path and vanishes at the root of an absolute
one. `normalNames` are the names of the lexical normal form and `lexicallyNormal` is
its text, with the standard's rules for a trailing separator.

The results are about one question, whether a path built by `append` stays below its
left side (`Inside`):

* `shape_normalNames`: the `..` of a normal form all stand at its front, so a normal
  form that does not begin with `..` has none (`not_mem_dotdot`);
* `normalNames_append`: appending a relative path goes on walking where the left side
  ended;
* `inside_append`: a relative right side all of whose names are proper stays inside.

A system call takes a C string, which ends where U+0000 stands: `cStr` is what is left of
a text. For `std::filesystem::path` U+0000 is a character like any other.
-/

namespace LexPath

/-- The text of a path. -/
abbrev Text := List Char

/-- A name between separators. -/
abbrev Name := List Char

/-- The name of the directory itself. -/
def dot : Name := ['.']

/-- The name of the directory above. -/
def dotdot : Name := ['.', '.']

/-- The text starts at the root. -/
def isAbsolute (t : Text) : Bool := t.head? == some '/'

/-- The names of a text, empty ones included: `a//b/` has the names `a`, the empty
name, `b` and the empty name. -/
def names (t : Text) : List Name := t.splitOn '/'

/-- A name that is neither skipped nor goes up. -/
def Proper (n : Name) : Prop := n ≠ [] ∧ n ≠ dot ∧ n ≠ dotdot

instance (n : Name) : Decidable (Proper n) := inferInstanceAs (Decidable (_ ∧ _ ∧ _))

/-- One name of the walk. -/
def push (rooted : Bool) (stack : List Name) (n : Name) : List Name :=
  if n = [] ∨ n = dot then stack
  else if n = dotdot then
    match stack.getLast? with
    | none => if rooted then [] else [dotdot]
    | some top => if top = dotdot then stack ++ [dotdot] else stack.dropLast
  else stack ++ [n]

/-- Walk a list of names. -/
def walk (rooted : Bool) (stack : List Name) (ns : List Name) : List Name :=
  ns.foldl (push rooted) stack

/-- The names of the lexical normal form. -/
def normalNames (t : Text) : List Name := walk (isAbsolute t) [] (names t)

/-- The last name of the text stands for a directory: it is empty, `.` or `..`. -/
def endsInDirectory (t : Text) : Bool :=
  match (names t).getLast? with
  | none => false
  | some n => n = [] ∨ n = dot ∨ n = dotdot

/-- `path::lexically_normal`. -/
def lexicallyNormal (t : Text) : Text :=
  if t = [] then []
  else if normalNames t = [] then (if isAbsolute t then ['/'] else dot)
  else (if isAbsolute t then ['/'] else []) ++ ['/'].intercalate (normalNames t) ++
    (if endsInDirectory t ∧ (normalNames t).getLast? ≠ some dotdot then ['/'] else [])

/-- `path::operator/`: an absolute right side replaces the left one. -/
def append (l r : Text) : Text :=
  if isAbsolute r then r
  else if l = [] ∨ l.getLast? = some '/' then l ++ r
  else l ++ '/' :: r

/-- `path::extension` of a single name: from its last dot on, unless that dot comes
first. -/
def extension (n : Name) : Name :=
  if n = dot ∨ n = dotdot then []
  else
    let stem := n.reverse.dropWhile (· ≠ '.')
    if stem.length ≤ 1 then [] else n.drop (stem.length - 1)

/-- The names before the last component of a text, and that component: empty names and `.`
at the end do not count. -/
def lastComponent (t : Text) : Option (List Name × Name) :=
  match (names t).reverse.dropWhile fun n => n = [] ∨ n = dot with
  | [] => none
  | n :: before => some (before.reverse, n)

/-- `Path::file_stem` of a single name: up to its last dot, unless that dot comes first. -/
def fileStem (n : Name) : Name :=
  let stem := n.reverse.dropWhile (· ≠ '.')
  if stem.length ≤ 1 then n else n.take (stem.length - 1)

/-- `Path::with_extension`. A text without a file name stays as it is. -/
def withExtension (t : Text) (ext : Name) : Text :=
  match lastComponent t with
  | none => t
  | some (before, n) =>
    if n = dotdot then t else ['/'].intercalate (before ++ [fileStem n ++ '.' :: ext])

/-- `path::parent_path`: the text up to its last name. The separator in front of that name
stays, which makes no difference to the names. -/
def parentPath : Text → Text
  | [] => []
  | c :: t => if '/' ∈ c :: t then c :: parentPath t else []

/-- U+0000, which ends a C string. -/
def nul : Char := Char.ofNat 0

/-- What a system call sees of a text. -/
def cStr (t : Text) : Text := t.takeWhile (· ≠ nul)

/-- The normal form of `t` lies at or below that of `root`. -/
def Inside (root t : Text) : Prop :=
  isAbsolute t = isAbsolute root ∧ normalNames root <+: normalNames t ∧
    dotdot ∉ (normalNames t).drop (normalNames root).length

instance (root t : Text) : Decidable (Inside root t) :=
  inferInstanceAs (Decidable (_ ∧ _ ∧ _))

example : lexicallyNormal "a/./b/..".toList = "a/".toList := by decide
example : lexicallyNormal "a/../../b/..".toList = "..".toList := by decide
example : lexicallyNormal "//a/../..".toList = "/".toList := by decide
example : extension "..tmp".toList = ".tmp".toList := by decide
example : extension ".tmp".toList = [] := by decide
example : withExtension "/a/b.txt/".toList "tmp".toList = "/a/b.tmp".toList := by decide

/-- A name has an extension when something stands before its last dot. -/
theorem extension_eq_cons_iff {n e : Name} (he : e ≠ []) (hdot : '.' ∉ e) :
    extension n = '.' :: e ↔ ∃ stem, stem ≠ [] ∧ n = stem ++ '.' :: e := by
  constructor
  · intro h
    unfold extension at h
    split at h
    · exact absurd h (by simp)
    simp only at h
    split at h
    · exact absurd h (by simp)
    next hlong =>
    refine ⟨_, ?_, (List.take_append_drop _ n).symm.trans (congrArg _ h)⟩
    intro hnil
    rw [List.take_eq_nil_iff] at hnil
    obtain hzero | rfl := hnil
    · omega
    · exact absurd h (by simp)
  · rintro ⟨stem, hstem, rfl⟩
    -- from the end, the first dot is the extension's
    have hrev : (stem ++ '.' :: e).reverse.dropWhile (· ≠ '.') = '.' :: stem.reverse := by
      rw [List.reverse_append, List.reverse_cons, List.append_assoc, List.dropWhile_append_of_pos]
      · rfl
      · intro c hc
        simp only [decide_eq_true_eq]
        rintro rfl
        exact hdot (List.mem_reverse.mp hc)
    have hlen : stem.length ≠ 0 := fun hc => hstem (List.length_eq_zero_iff.mp hc)
    have helen : e.length ≠ 0 := fun hc => he (List.length_eq_zero_iff.mp hc)
    unfold extension
    rw [if_neg, hrev]
    · simp only [List.length_cons, List.length_reverse]
      rw [if_neg (by omega), Nat.add_sub_cancel, List.drop_left]
    · -- the name is too long to be `.` or `..`
      rintro (hc | hc)
      · have := congrArg List.length hc
        simp [dot] at this
        omega
      · have := congrArg List.length hc
        simp [dotdot] at this
        omega

/-! ### Names of a text -/

theorem names_ne_nil (t : Text) : names t ≠ [] := List.splitOn_ne_nil _ _

theorem names_append_sep (l r : Text) : names (l ++ '/' :: r) = names l ++ names r :=
  List.splitOn_append_cons_self l r

theorem not_mem_of_mem_names {t : Text} : ∀ {n : Name}, n ∈ names t → '/' ∉ n := by
  induction t with
  | nil => intro n hn; simp [names] at hn; simp [hn]
  | cons c t ih =>
    intro n hn
    rw [names, List.splitOn_cons_eq_if_modifyHead] at hn
    split at hn
    · -- a separator opens a new, empty name
      rcases List.mem_cons.mp hn with rfl | hn
      · simp
      · exact ih hn
    · next hc =>
      cases hs : List.splitOn '/' t with
      | nil => exact absurd hs (List.splitOn_ne_nil _ _)
      | cons m ms =>
        rw [hs, List.modifyHead_cons, List.mem_cons] at hn
        rcases hn with rfl | hn
        · have hm : '/' ∉ m := ih (by rw [names, hs]; exact List.mem_cons_self)
          simp only [List.mem_cons, not_or]
          exact ⟨fun h => hc (by simp [← h]), hm⟩
        · exact ih (by rw [names, hs]; exact List.mem_cons_of_mem _ hn)

/-- The characters of a name are characters of the text. -/
theorem mem_of_mem_names {t : Text} : ∀ {n : Name}, n ∈ names t → ∀ {c : Char}, c ∈ n → c ∈ t := by
  induction t with
  | nil => intro n hn c hc; simp [names] at hn; simp [hn] at hc
  | cons d t ih =>
    intro n hn c hc
    rw [names, List.splitOn_cons_eq_if_modifyHead] at hn
    split at hn
    · rcases List.mem_cons.mp hn with rfl | hn
      · exact absurd hc (by simp)
      · exact List.mem_cons_of_mem d (ih hn hc)
    · cases hs : List.splitOn '/' t with
      | nil => exact absurd hs (List.splitOn_ne_nil _ _)
      | cons m ms =>
        rw [hs, List.modifyHead_cons, List.mem_cons] at hn
        rcases hn with rfl | hn
        · rcases List.mem_cons.mp hc with rfl | hc
          · exact List.mem_cons_self
          · exact List.mem_cons_of_mem d (ih (by rw [names, hs]; exact List.mem_cons_self) hc)
        · exact List.mem_cons_of_mem d (ih (by rw [names, hs]; exact List.mem_cons_of_mem _ hn) hc)

/-- Text put at the end of a path without a separator lengthens its last name. -/
theorem names_append_of_not_mem (t : Text) {s : Text} (hs : '/' ∉ s) :
    ∃ init last, names t = init ++ [last] ∧ names (t ++ s) = init ++ [last ++ s] := by
  induction t with
  | nil => exact ⟨[], [], rfl, List.splitOn_eq_singleton hs⟩
  | cons c t ih =>
    obtain ⟨init, last, h₁, h₂⟩ := ih
    simp only [names, List.cons_append, List.splitOn_cons_eq_if_modifyHead] at h₁ h₂ ⊢
    split
    · -- the character is a separator, or goes to the front of the first name
      exact ⟨[] :: init, last, by rw [h₁]; rfl, by rw [h₂]; rfl⟩
    · rw [h₁, h₂]
      cases init with
      | nil => exact ⟨[], c :: last, rfl, rfl⟩
      | cons m ms => exact ⟨(c :: m) :: ms, last, rfl, rfl⟩

/-! ### C strings -/

theorem cStr_append_of_not_mem {t : Text} (h : nul ∉ t) (s : Text) :
    cStr (t ++ s) = t ++ cStr s := by
  refine List.takeWhile_append_of_pos fun c hc => ?_
  simp only [decide_eq_true_eq]
  rintro rfl
  exact h hc

/-- A text without U+0000 is a C string. -/
theorem cStr_of_not_mem {t : Text} (h : nul ∉ t) : cStr t = t := by
  have happ := cStr_append_of_not_mem h []
  rwa [List.append_nil, show cStr [] = [] from rfl, List.append_nil] at happ

/-- What stands behind U+0000 is not seen. -/
theorem cStr_append_of_mem {t : Text} (h : nul ∈ t) (s : Text) : cStr (t ++ s) = cStr t := by
  induction t with
  | nil => exact absurd h (by simp)
  | cons c t ih =>
    unfold cStr at ih ⊢
    rw [List.cons_append, List.takeWhile_cons, List.takeWhile_cons]
    by_cases hc : c = nul
    · simp [hc]
    · rw [ih ((List.mem_cons.mp h).resolve_left (Ne.symm hc))]

theorem cStr_isPrefix (t : Text) : cStr t <+: t := List.takeWhile_prefix _

/-- A suffix without U+0000 is seen where the text it is put to has none. -/
theorem cStr_append_suffix {t s : Text} (hs : nul ∉ s) :
    cStr (t ++ s) = if nul ∈ t then cStr t else t ++ s := by
  split
  · next h => exact cStr_append_of_mem h s
  · next h => rw [cStr_append_of_not_mem h, cStr_of_not_mem hs]

/-! ### The parent path -/

theorem mem_parentPath_iff {t : Text} : '/' ∈ parentPath t ↔ '/' ∈ t := by
  induction t with
  | nil => exact Iff.rfl
  | cons c t ih =>
    unfold parentPath
    split
    · rw [List.mem_cons, List.mem_cons, ih]
    · next h => exact iff_of_false (by simp) h

theorem parentPath_prefix (t : Text) : parentPath t <+: t := by
  induction t with
  | nil => exact List.prefix_rfl
  | cons c t ih =>
    unfold parentPath
    split
    · exact List.cons_prefix_cons.mpr ⟨rfl, ih⟩
    · exact List.nil_prefix

theorem isAbsolute_parentPath (t : Text) : isAbsolute (parentPath t) = isAbsolute t := by
  cases t with
  | nil => rfl
  | cons c t =>
    unfold parentPath
    split
    · rfl
    · next h =>
      have hc : c ≠ '/' := fun hc => h (hc ▸ List.mem_cons_self)
      simp [isAbsolute, hc]

/-- The parent path has the names of the text but the last, and an empty one. -/
theorem names_parentPath (t : Text) : names (parentPath t) = (names t).dropLast ++ [[]] := by
  induction t with
  | nil => rfl
  | cons c t ih =>
    have hne : names t ≠ [] := List.splitOn_ne_nil _ _
    unfold parentPath
    split
    · next h =>
      simp only [names, List.splitOn_cons_eq_if_modifyHead] at ih hne ⊢
      split
      · rw [ih, List.dropLast_cons_of_ne_nil hne, List.cons_append]
      · next hc =>
        -- a separator stands further on, so the first name is not the last one
        have hmem : '/' ∈ t := (List.mem_cons.mp h).resolve_left fun hc' => hc (by simp [← hc'])
        obtain ⟨l, r, rfl⟩ := List.append_of_mem hmem
        obtain ⟨m, ms, hl⟩ := List.exists_cons_of_ne_nil (List.splitOn_ne_nil '/' l)
        obtain ⟨n, ns, hr⟩ := List.exists_cons_of_ne_nil (List.splitOn_ne_nil '/' r)
        rw [ih, List.splitOn_append_cons_self, hl, hr]
        cases ms <;> simp
    · next h =>
      rw [names, names, List.splitOn_eq_singleton h]
      rfl

/-- Where U+0000 stands in the last name, the C string has the same parent path. -/
theorem parentPath_cStr {t : Text} (h : nul ∉ parentPath t) :
    parentPath (cStr t) = parentPath t := by
  induction t with
  | nil => rfl
  | cons c t ih =>
    by_cases hsep : '/' ∈ c :: t
    · rw [parentPath, if_pos hsep] at h ⊢
      have hc : c ≠ nul := fun hc => h (hc ▸ List.mem_cons_self)
      have ih' := ih fun hmem => h (List.mem_cons_of_mem _ hmem)
      have hcons : cStr (c :: t) = c :: cStr t := by
        unfold cStr
        rw [List.takeWhile_cons, if_pos (by simpa using hc)]
      have hsep' : '/' ∈ c :: cStr t := by
        obtain rfl | hmem := List.mem_cons.mp hsep
        · exact List.mem_cons_self
        · refine List.mem_cons_of_mem _ (mem_parentPath_iff.mp ?_)
          rw [ih']
          exact mem_parentPath_iff.mpr hmem
      rw [hcons, parentPath, if_pos hsep', ih']
    · have hsep' : '/' ∉ cStr (c :: t) := fun hmem => hsep ((cStr_isPrefix _).subset hmem)
      rw [parentPath, if_neg hsep]
      cases hcons : cStr (c :: t) with
      | nil => rfl
      | cons d u => rw [parentPath, if_neg (hcons ▸ hsep')]

/-- Where U+0000 stands before the last name, nothing of that name is seen. -/
theorem cStr_parentPath_of_mem {t : Text} (h : nul ∈ parentPath t) :
    cStr (parentPath t) = cStr t := by
  obtain ⟨s, hs⟩ := parentPath_prefix t
  conv_rhs => rw [← hs]
  exact (cStr_append_of_mem h s).symm

/-- What a system call does not see begins with U+0000. -/
theorem exists_eq_cStr_append {t : Text} (h : nul ∈ t) : ∃ r, t = cStr t ++ nul :: r := by
  obtain ⟨l, r, hl, rfl⟩ : ∃ l r, nul ∉ l ∧ t = l ++ nul :: r := by
    obtain ⟨l, r, hl, ht⟩ := List.eq_append_cons_of_mem h
    exact ⟨l, r, ht, hl⟩
  refine ⟨r, ?_⟩
  rw [cStr_append_of_not_mem hl]
  simp [cStr]

theorem isAbsolute_cStr (t : Text) : isAbsolute (cStr t) = isAbsolute t := by
  cases t with
  | nil => rfl
  | cons c t =>
    by_cases hc : c = nul
    · subst hc
      rfl
    · simp [cStr, isAbsolute, hc]

/-- Of the names of a text a system call sees those before the one that U+0000 is in, and the
beginning of that one. -/
theorem names_cStr_of_mem {t : Text} (h : nul ∈ t) :
    ∃ init last rest more, names (cStr t) = init ++ [last] ∧
      names t = init ++ (last ++ nul :: rest) :: more := by
  obtain ⟨r, hr⟩ := exists_eq_cStr_append h
  by_cases hsep : '/' ∈ r
  · -- the name goes on to the next separator
    obtain ⟨w, more, rfl, hw⟩ := List.eq_append_cons_of_mem hsep
    have hword : '/' ∉ nul :: w := fun hc =>
      (List.mem_cons.mp hc).elim (fun hc => absurd hc (by decide)) hw
    obtain ⟨init, last, hseen, hall⟩ := names_append_of_not_mem (cStr t) hword
    refine ⟨init, last, w, names more, hseen, ?_⟩
    rw [hr, ← List.cons_append, ← List.append_assoc, names_append_sep, hall, List.append_assoc,
      List.singleton_append]
  · have hword : '/' ∉ nul :: r := fun hc =>
      (List.mem_cons.mp hc).elim (fun hc => absurd hc (by decide)) hsep
    obtain ⟨init, last, hseen, hall⟩ := names_append_of_not_mem (cStr t) hword
    exact ⟨init, last, r, [], hseen, by rw [hr, hall]⟩

/-! ### The walk -/

theorem walk_append (rooted : Bool) (st : List Name) (ns ms : List Name) :
    walk rooted st (ns ++ ms) = walk rooted (walk rooted st ns) ms := by
  unfold walk
  exact List.foldl_append

theorem push_proper (rooted : Bool) (st : List Name) {n : Name} (h : Proper n) :
    push rooted st n = st ++ [n] := by
  obtain ⟨h₁, h₂, h₃⟩ := h
  simp [push, h₁, h₂, h₃]

/-- Proper names are kept, in order. -/
theorem walk_proper (rooted : Bool) (ns : List Name) (h : ∀ n ∈ ns, Proper n) :
    ∀ st, walk rooted st ns = st ++ ns := by
  induction ns with
  | nil => intro st; simp [walk]
  | cons n ns ih =>
    intro st
    change walk rooted (push rooted st n) ns = _
    rw [push_proper rooted st (h n List.mem_cons_self),
      ih fun m hm => h m (List.mem_cons_of_mem _ hm)]
    simp

/-- Without `..` nothing is taken back. -/
theorem prefix_walk {rooted : Bool} (ns : List Name) (h : dotdot ∉ ns) :
    ∀ st, st <+: walk rooted st ns := by
  induction ns with
  | nil => exact List.prefix_refl
  | cons n ns ih =>
    intro st
    have hn : n ≠ dotdot := fun hc => h (by rw [hc]; exact List.mem_cons_self)
    have hpush : st <+: push rooted st n := by
      unfold push
      rw [if_neg hn]
      split
      · exact List.prefix_refl st
      · exact List.prefix_append st _
    exact hpush.trans (ih (fun hc => h (List.mem_cons_of_mem n hc)) _)

/-- From the root nothing goes up, so all that is kept is proper. -/
theorem proper_of_mem_walk (ns : List Name) :
    ∀ {st : List Name}, (∀ n ∈ st, Proper n) → ∀ n ∈ walk true st ns, Proper n := by
  induction ns with
  | nil => exact fun h => h
  | cons m ns ih =>
    intro st h
    refine @ih (push true st m) fun n hn => ?_
    unfold push at hn
    split at hn
    · exact h n hn
    next hskip =>
    split at hn
    · split at hn
      · exact absurd hn (by simp)
      next top htop =>
      rw [if_neg (h top (List.mem_of_getLast? htop)).2.2] at hn
      exact h n (List.mem_of_mem_dropLast hn)
    · next hup =>
      rcases List.mem_append.mp hn with hn | hn
      · exact h n hn
      · rw [List.mem_singleton.mp hn]
        push Not at hskip
        exact ⟨hskip.1, hskip.2, hup⟩

/-! ### The shape of a normal form -/

/-- Every `..` stands at the front. -/
def Shape (st : List Name) : Prop :=
  ∃ k ps, st = List.replicate k dotdot ++ ps ∧ ∀ p ∈ ps, Proper p

theorem Shape.nil : Shape [] := ⟨0, [], rfl, by simp⟩

theorem Shape.push {rooted : Bool} {st : List Name} (h : Shape st) (n : Name) :
    Shape (push rooted st n) := by
  obtain ⟨k, ps, rfl, hps⟩ := h
  unfold LexPath.push
  split
  · exact ⟨k, ps, rfl, hps⟩
  next hskip =>
  split
  · -- `..` pops the last proper name, or joins the `..` at the front
    rcases List.eq_nil_or_concat ps with rfl | ⟨qs, q, rfl⟩
    · cases k with
      -- nothing to pop: the root swallows `..`, a relative path keeps it
      | zero =>
        cases rooted with
        | true => simpa using Shape.nil
        | false => exact ⟨1, [], rfl, by simp⟩
      | succ k =>
        refine ⟨k + 2, [], ?_, by simp⟩
        simp [List.getLast?_replicate, List.replicate_succ' (n := k + 1)]
    · rw [List.concat_eq_append] at hps ⊢
      have hq : Proper q := hps q (by simp)
      rw [← List.append_assoc]
      simp only [List.getLast?_append, List.getLast?_singleton, Option.some_or,
        List.dropLast_concat, if_neg hq.2.2]
      exact ⟨k, qs, rfl, fun p hp => hps p (by simp [hp])⟩
  · next hup =>
    refine ⟨k, ps ++ [n], by simp, fun p hp => ?_⟩
    rcases List.mem_append.mp hp with hp | hp
    · exact hps p hp
    · rw [List.mem_singleton.mp hp]
      push Not at hskip
      exact ⟨hskip.1, hskip.2, hup⟩

theorem Shape.walk {rooted : Bool} (ns : List Name) :
    ∀ {st : List Name}, Shape st → Shape (walk rooted st ns) := by
  induction ns with
  | nil => intro st h; exact h
  | cons n ns ih => intro st h; exact ih (h.push n)

theorem shape_normalNames (t : Text) : Shape (normalNames t) := Shape.nil.walk _

/-- A normal form whose first name is not `..` has none at all. -/
theorem Shape.proper {st : List Name} (h : Shape st) (hhead : st.head? ≠ some dotdot) :
    ∀ n ∈ st, Proper n := by
  obtain ⟨k, ps, rfl, hps⟩ := h
  cases k with
  | zero => simpa using hps
  | succ k => exact absurd (by simp [List.replicate_succ]) hhead

/-- The walk never makes up a name: what it keeps is `..` or a name of the text. -/
theorem mem_walk {rooted : Bool} (ns : List Name) :
    ∀ {st : List Name} {n : Name}, n ∈ walk rooted st ns → n ∈ st ∨ n ∈ ns ∨ n = dotdot := by
  induction ns with
  | nil => intro st n h; exact Or.inl h
  | cons m ns ih =>
    intro st n h
    rcases @ih (LexPath.push rooted st m) n h with h | h | h
    · unfold LexPath.push at h
      split at h
      · exact Or.inl h
      split at h
      · split at h
        · split at h
          · exact absurd h (by simp)
          · exact Or.inr (Or.inr (List.mem_singleton.mp h))
        · split at h
          · rcases List.mem_append.mp h with h | h
            · exact Or.inl h
            · exact Or.inr (Or.inr (List.mem_singleton.mp h))
          · exact Or.inl (List.mem_of_mem_dropLast h)
      · rcases List.mem_append.mp h with h | h
        · exact Or.inl h
        · rw [List.mem_singleton.mp h]; exact Or.inr (Or.inl List.mem_cons_self)
    · exact Or.inr (Or.inl (List.mem_cons_of_mem _ h))
    · exact Or.inr (Or.inr h)

theorem not_mem_of_mem_normalNames {t : Text} {n : Name} (h : n ∈ normalNames t) : '/' ∉ n := by
  rcases mem_walk (names t) h with h | h | rfl
  · exact absurd h (by simp)
  · exact not_mem_of_mem_names h
  · decide

/-! ### Paths that only go down -/

/-- A relative text all of whose names but the last are proper, the last being proper,
empty or `.`. -/
def Downward (c : Text) : Prop :=
  isAbsolute c = false ∧
    ∃ init last, names c = init ++ [last] ∧ (∀ n ∈ init, Proper n) ∧ last ≠ dotdot

theorem isAbsolute_intercalate {ns : List Name} (h : ∀ n ∈ ns, Proper n)
    (hsep : ∀ n ∈ ns, '/' ∉ n) (r : Text) (hns : ns ≠ []) :
    isAbsolute (['/'].intercalate ns ++ r) = false := by
  cases ns with
  | nil => exact absurd rfl hns
  | cons n ns =>
    have hn := (h n List.mem_cons_self).1
    have hs := hsep n List.mem_cons_self
    cases n with
    | nil => exact absurd rfl hn
    | cons c n =>
      have hc : c ≠ '/' := fun hc => hs (by simp [hc])
      cases ns with
      | nil => simp [isAbsolute, List.intercalate, hc]
      | cons m ms => simp [isAbsolute, List.intercalate, hc]

/-- Proper names with separators between them, and perhaps one behind, only go down. -/
theorem downward_intercalate {ns : List Name} (hns : ns ≠ []) (hproper : ∀ n ∈ ns, Proper n)
    (hsep : ∀ n ∈ ns, '/' ∉ n) (dir : Prop) [Decidable dir] :
    Downward (['/'].intercalate ns ++ if dir then ['/'] else []) := by
  refine ⟨isAbsolute_intercalate hproper hsep _ hns, ?_⟩
  split
  · -- a trailing separator: the last name is empty
    refine ⟨ns, [], ?_, hproper, by decide⟩
    rw [names_append_sep]
    exact congrArg (· ++ names []) (List.splitOn_intercalate '/' hsep hns)
  · rw [List.append_nil]
    refine ⟨ns.dropLast, ns.getLast hns, ?_, ?_, ?_⟩
    · rw [List.dropLast_append_getLast]
      exact List.splitOn_intercalate '/' hsep hns
    · intro n hn
      exact hproper n (List.mem_of_mem_dropLast hn)
    · exact (hproper _ (List.getLast_mem hns)).2.2

/-- The normal form of a relative path that does not begin with two dots only goes
down. -/
theorem downward_lexicallyNormal {t : Text} (habs : isAbsolute t = false)
    (hup : (lexicallyNormal t).take 2 ≠ dotdot) : Downward (lexicallyNormal t) := by
  unfold lexicallyNormal at hup ⊢
  split
  · exact ⟨rfl, [], [], rfl, by simp, by decide⟩
  next ht =>
  rw [if_neg ht] at hup
  split
  · rw [habs]; exact ⟨rfl, [], dot, rfl, by simp, by decide⟩
  next hns =>
  rw [if_neg hns, habs] at hup
  simp only [habs, Bool.false_eq_true, if_false, List.nil_append] at hup ⊢
  -- a normal form that begins with `..` has a text that begins with two dots
  have hhead : (normalNames t).head? ≠ some dotdot := by
    intro hc
    refine hup ?_
    obtain ⟨ns, hns'⟩ : ∃ ns, normalNames t = dotdot :: ns := by
      cases h : normalNames t with
      | nil => exact absurd h hns
      | cons n ns => rw [h] at hc; exact ⟨ns, by rw [Option.some.inj hc]⟩
    rw [hns']
    cases ns <;> simp [List.intercalate, dotdot]
  exact downward_intercalate hns ((shape_normalNames t).proper hhead)
    (fun n hn => not_mem_of_mem_normalNames hn) _

/-- The normal form of an absolute path goes down from the root. -/
theorem exists_downward_of_isAbsolute {t : Text} (habs : isAbsolute t = true) :
    ∃ c, lexicallyNormal t = '/' :: c ∧ Downward c := by
  unfold lexicallyNormal
  rw [if_neg (by rintro rfl; exact absurd habs (by decide)), habs]
  split
  · exact ⟨[], rfl, rfl, [], [], rfl, by simp, by decide⟩
  next hns =>
  refine ⟨_, by rw [if_pos rfl, List.append_assoc]; rfl, ?_⟩
  refine downward_intercalate hns (fun n hn => ?_) (fun n hn => not_mem_of_mem_normalNames hn) _
  rw [normalNames, habs] at hn
  exact proper_of_mem_walk (names t) (by simp) n hn

theorem Downward.dotdot_not_mem {c : Text} (h : Downward c) : dotdot ∉ names c := by
  obtain ⟨-, init, last, hnames, hinit, hlast⟩ := h
  rw [hnames]
  intro hmem
  rcases List.mem_append.mp hmem with hmem | hmem
  · exact (hinit _ hmem).2.2 rfl
  · exact hlast (List.mem_singleton.mp hmem).symm

/-- **What a system call sees of a path that only goes down**, if it can be the text of a file,
only goes down, too. Cut behind two dots it would not. -/
theorem Downward.cStr {c : Text} (h : Downward c) (hleaf : endsInDirectory (cStr c) = false) :
    Downward (cStr c) ∧ ∀ n ∈ names (cStr c), Proper n := by
  obtain ⟨habs, init', last', hnames', hinit', hlast'⟩ := h
  obtain ⟨init, last, hnames, hinit⟩ : ∃ init last, names (LexPath.cStr c) = init ++ [last] ∧
      ∀ n ∈ init, Proper n := by
    by_cases hnul : nul ∈ c
    · obtain ⟨init, last, rest, more, hseen, hall⟩ := names_cStr_of_mem hnul
      refine ⟨init, last, hseen, fun n hn => hinit' n ?_⟩
      -- the name that is cut, or one behind it, is the last
      obtain ⟨ms, m, hm⟩ := (List.eq_nil_or_concat' ((last ++ nul :: rest) :: more)).resolve_left
        (by simp)
      rw [hall, hm, ← List.append_assoc] at hnames'
      rw [← (List.append_inj' hnames' rfl).1]
      exact List.mem_append_left ms hn
    · rw [cStr_of_not_mem hnul]
      exact ⟨init', last', hnames', hinit'⟩
  have hlast : Proper last := by
    unfold endsInDirectory at hleaf
    rw [hnames, List.getLast?_concat] at hleaf
    simpa [Proper, not_or] using hleaf
  refine ⟨⟨(isAbsolute_cStr c).trans habs, init, last, hnames, hinit, hlast.2.2⟩, fun n hn => ?_⟩
  rw [hnames] at hn
  rcases List.mem_append.mp hn with hn | hn
  · exact hinit n hn
  · rwa [List.mem_singleton.mp hn]

/-- Lengthening the last name of a path that only goes down, by more than two
characters, leaves it so. -/
theorem Downward.append_suffix {c s : Text} (h : Downward c) (hs : '/' ∉ s) (hlen : 2 < s.length) :
    Downward (c ++ s) := by
  obtain ⟨habs, init, last, hnames, hinit, -⟩ := h
  obtain ⟨init', last', h₁, h₂⟩ := names_append_of_not_mem c hs
  rw [hnames] at h₁
  obtain ⟨rfl, h₁⟩ := List.append_inj' h₁ rfl
  refine ⟨?_, init, last' ++ s, h₂, hinit, ?_⟩
  · cases c with
    | nil =>
      cases s with
      | nil => rfl
      | cons d s => simpa [isAbsolute] using fun hd => hs (by simp [hd])
    | cons d c => exact habs
  · intro hc
    -- `..` is too short to end in the suffix
    have := congrArg List.length hc
    simp [dotdot] at this
    omega

theorem isAbsolute_append {l r : Text} (hr : isAbsolute r = false) :
    isAbsolute (append l r) = isAbsolute l := by
  unfold append
  rw [hr]
  cases l with
  | nil =>
    simp only [Bool.false_eq_true, if_false, true_or, if_true, List.nil_append]
    exact hr
  | cons c l =>
    simp only [Bool.false_eq_true, if_false]
    split <;> rfl

/-- Appending a relative path goes on walking where the left side ended. -/
theorem walk_names_append {l r : Text} (hr : isAbsolute r = false) (rooted : Bool)
    (st : List Name) : walk rooted st (names (append l r)) =
      walk rooted (walk rooted st (names l)) (names r) := by
  unfold append
  rw [hr]
  simp only [Bool.false_eq_true, if_false]
  split
  · next h =>
    rcases h with rfl | h
    · rfl
    · -- the left side ends in a separator: its last name is empty and is skipped
      obtain ⟨l', rfl⟩ : ∃ l', l = l' ++ ['/'] := by
        obtain ⟨l', hl'⟩ := List.getLast?_eq_some_iff.mp h
        exact ⟨l', hl'⟩
      rw [List.append_assoc, List.singleton_append, names_append_sep, names_append_sep, walk_append,
        walk_append]
      congr 1
  · -- a separator is put between the two sides
    rw [names_append_sep, walk_append]

theorem normalNames_append {l r : Text} (hr : isAbsolute r = false) :
    normalNames (append l r) = walk (isAbsolute l) (normalNames l) (names r) := by
  unfold normalNames
  rw [isAbsolute_append hr, walk_names_append hr]

/-- Walking down from somewhere ends below it. -/
theorem Downward.prefix_walk {c : Text} (h : Downward c) (rooted : Bool) (st : List Name) :
    st <+: walk rooted st (names c) := LexPath.prefix_walk _ h.dotdot_not_mem st

/-- What is seen of a relative path that is appended. -/
theorem cStr_append {l r : Text} (hl : nul ∉ l) (hr : isAbsolute r = false) :
    cStr (append l r) = append l (cStr r) := by
  unfold append
  rw [isAbsolute_cStr, hr]
  simp only [Bool.false_eq_true, if_false]
  split
  · exact cStr_append_of_not_mem hl r
  · rw [cStr_append_of_not_mem hl, cStr, List.takeWhile_cons_of_pos (by decide), ← cStr]

/-- The last name of an appended path is that of the right side. -/
theorem endsInDirectory_append_right {l r : Text} (hr : isAbsolute r = false) :
    endsInDirectory (append l r) = endsInDirectory r := by
  have hlast : (names (append l r)).getLast? = (names r).getLast? := by
    have hne := names_ne_nil r
    unfold append
    rw [hr]
    simp only [Bool.false_eq_true, if_false]
    split
    · next h =>
      rcases h with rfl | h
      · rfl
      · obtain ⟨l', rfl⟩ := List.getLast?_eq_some_iff.mp h
        rw [List.append_assoc, List.singleton_append, names_append_sep,
          List.getLast?_append_of_ne_nil _ hne]
    · rw [names_append_sep, List.getLast?_append_of_ne_nil _ hne]
  rw [endsInDirectory, endsInDirectory, hlast]

/-- **A normal path inside a root stays inside** where a system call cuts it, if what is left can
be the text of a file. -/
theorem normalNames_prefix_cStr {root c : Text} (hroot : nul ∉ root) (hc : Downward c)
    (hin : normalNames root <+: normalNames ('/' :: c))
    (hleaf : endsInDirectory (cStr ('/' :: c)) = false) :
    normalNames root <+: normalNames (cStr ('/' :: c)) := by
  have hseen : cStr ('/' :: c) = '/' :: cStr c := List.takeWhile_cons_of_pos (by decide)
  have hnormal : ∀ x : Text, normalNames ('/' :: x) = walk true [] (names x) := by
    intro x
    rw [normalNames, show '/' :: x = [] ++ '/' :: x from rfl, names_append_sep]
    rfl
  by_cases hnul : nul ∈ c
  swap
  · rwa [hseen, cStr_of_not_mem hnul]
  rw [hseen] at hleaf ⊢
  have hleaf' : endsInDirectory (cStr c) = false := by
    have hlast : (names ('/' :: cStr c)).getLast? = (names (cStr c)).getLast? := by
      rw [show '/' :: cStr c = [] ++ '/' :: cStr c from rfl, names_append_sep,
        List.getLast?_append_of_ne_nil _ (names_ne_nil _)]
    rw [← hleaf, endsInDirectory, endsInDirectory, hlast]
  obtain ⟨init, last, rest, more, hcut, hall⟩ := names_cStr_of_mem hnul
  have hproper := (hc.cStr hleaf').2
  rw [hnormal, walk_proper true _ hproper, hcut, List.nil_append]
  rw [hnormal] at hin
  -- the name that is cut is kept, with those before it
  have hbig : Proper (last ++ nul :: rest) := by
    refine ⟨by simp, fun h => ?_, fun h => ?_⟩
    · exact absurd (show nul ∈ dot from h ▸ by simp) (by decide)
    · exact absurd (show nul ∈ dotdot from h ▸ by simp) (by decide)
  have hkept : init ++ [last ++ nul :: rest] <+: walk true [] (names c) := by
    have hdown := hc.dotdot_not_mem
    rw [hall, show init ++ (last ++ nul :: rest) :: more =
      (init ++ [last ++ nul :: rest]) ++ more by simp] at hdown ⊢
    rw [walk_append, walk_proper true (init ++ [last ++ nul :: rest]), List.nil_append]
    · exact LexPath.prefix_walk more (fun hmem => hdown (List.mem_append_right _ hmem)) _
    · intro n hn
      rcases List.mem_append.mp hn with hn | hn
      · exact hproper n (by rw [hcut]; exact List.mem_append_left _ hn)
      · rwa [List.mem_singleton.mp hn]
  by_cases hlen : (normalNames root).length ≤ init.length
  · have hinit : init <+: walk true [] (names c) := (List.prefix_append init _).trans hkept
    exact (List.prefix_of_prefix_length_le hin hinit hlen).trans (List.prefix_append init _)
  · -- otherwise it would be a name of the root
    have hlong : init ++ [last ++ nul :: rest] <+: normalNames root :=
      List.prefix_of_prefix_length_le hkept hin (by simp; omega)
    have hmem := hlong.subset (show last ++ nul :: rest ∈ init ++ [last ++ nul :: rest] by simp)
    rcases mem_walk (names root) hmem with h | h | h
    · exact absurd h (by simp)
    · exact absurd (mem_of_mem_names h (show nul ∈ last ++ nul :: rest by simp)) hroot
    · exact absurd (show nul ∈ dotdot from h ▸ by simp) (by decide)

theorem isAbsolute_lexicallyNormal {t : Text} (h : isAbsolute t = true) :
    isAbsolute (lexicallyNormal t) = true := by
  unfold lexicallyNormal
  rw [if_neg (by rintro rfl; exact absurd h (by decide)), h]
  split <;> rfl

/-- **A path that only goes down stays inside.** -/
theorem inside_append (root : Text) {c : Text} (h : Downward c) : Inside root (append root c) := by
  obtain ⟨habs, init, last, hnames, hinit, hlast⟩ := h
  refine ⟨isAbsolute_append habs, ?_⟩
  -- every name of `c` is pushed onto the root's, an empty one or `.` at the end is skipped
  have hwalk : normalNames (append root c) =
      normalNames root ++ (init ++ if last = [] ∨ last = dot then [] else [last]) := by
    rw [normalNames_append habs, hnames, walk_append, walk_proper _ _ hinit]
    change LexPath.push _ _ last = _
    unfold LexPath.push
    rw [if_neg hlast]
    split <;> simp
  rw [hwalk]
  refine ⟨List.prefix_append _ _, ?_⟩
  rw [List.drop_left]
  intro hmem
  rcases List.mem_append.mp hmem with hmem | hmem
  · exact (hinit _ hmem).2.2 rfl
  · split at hmem
    · exact absurd hmem (by simp)
    · exact hlast (List.mem_singleton.mp hmem).symm

/-- Lengthening the last name of a path and appending commute. -/
theorem append_append_suffix (l : Text) {c s : Text} (hc : isAbsolute c = false)
    (hcs : isAbsolute (c ++ s) = false) : append l c ++ s = append l (c ++ s) := by
  unfold append
  rw [hc, hcs]
  simp only [Bool.false_eq_true, if_false]
  split <;> simp

end LexPath
