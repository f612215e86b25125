import AdaptiveSync.Client.FailedDownload

/-!
# What `write_file` does to the files beside its own

`write_file` writes its data to a scratch file and renames that over the local file. The
scratch file has the name of the local file with its extension replaced by `tmp`
(`Path::with_extension`), where the server puts `.tmp` behind the name. So it can be another
file of the user's, and it is the local file itself when that ends in `.tmp`.

`WriteStep` has the calls of `write_file` one by one: `std::fs::write` opens the scratch file,
which empties it, and then makes as many `write` calls as the operating system likes, any of
which can fail behind others that did not. What the disk looks like between any two of them is
`stands_of_reach`, and `replaces_iff` says when
no other file is changed and the local file is never anything but its old content or the new
one.
-/

namespace AdaptiveSync

open LexPath Fs

/-! ### The calls of `write_file` -/

/-- How far `write_file` has come. -/
inductive WritePhase where
  | starting
  /-- The directories are made. -/
  | prepared
  /-- The scratch file is open, and this many bytes have been written to it. -/
  | writing (done : ℕ)
  | ended (result : Except ClientError Unit)

namespace FileOps

/-- One call. -/
inductive WriteStep (ops : FileOps) (p : String) (data : Bytes) :
    WritePhase × FileSystem → WritePhase × FileSystem → Prop
  | mkdirs {fs} (h : (ops.makeParents fs p).2 = true) :
    WriteStep ops p data (.starting, fs) (.prepared, (ops.makeParents fs p).1)
  | mkdirsFailed {fs} (h : (ops.makeParents fs p).2 = false) :
    WriteStep ops p data (.starting, fs)
      (.ended (.error (ioError fs "Cannot create dirs" .mkdir (ops.resolvePath p))),
        (ops.makeParents fs p).1)
  | openTmp {fs opened} (h : fs.openTruncate (ops.tmpPath p) = some opened) :
    WriteStep ops p data (.prepared, fs) (.writing 0, opened)
  | openTmpFailed {fs} (h : fs.openTruncate (ops.tmpPath p) = none) :
    WriteStep ops p data (.prepared, fs)
      (.ended (.error (ioError fs "Write error" .openWrite (ops.tmpPath p))), fs)
  /-- A call takes some of what is left, or of what is left before the call that fails. -/
  | write {fs n k} (hk : 0 < k) (hn : n + k ≤ ops.taken fs p data) :
    WriteStep ops p data (.writing n, fs) (.writing (n + k),
      fs.set (fs.locate (ops.tmpPath p))
        (.file (Blocks.writeAt 0 (fs.bytesAt (fs.locate (ops.tmpPath p))) n
          ((data.drop n).take k))))
  | writeFailed {fs n} (hn : n = ops.taken fs p data) (h : ops.WriteRefused fs p data) :
    WriteStep ops p data (.writing n, fs)
      (.ended (.error (ioError fs "Write error" .write (ops.tmpPath p))), fs)
  | rename {fs renamed} (h : fs.rename (ops.tmpPath p) (ops.resolvePath p) = some renamed) :
    WriteStep ops p data (.writing data.length, fs) (.ended (.ok ()), renamed)
  | renameFailed {fs} (h : fs.rename (ops.tmpPath p) (ops.resolvePath p) = none) :
    WriteStep ops p data (.writing data.length, fs)
      (.ended (.error (ioError fs "Rename error" .rename (ops.resolvePath p))), fs)

/-- What `write_file` can come to on a disk. -/
def WriteReach (ops : FileOps) (fs : FileSystem) (p : String) (data : Bytes) :
    WritePhase × FileSystem → Prop :=
  Relation.ReflTransGen (WriteStep ops p data) (.starting, fs)

section Calls

variable {ops : FileOps} {fs : FileSystem} {p : String} {data : Bytes}
  {s s' : WritePhase × FileSystem}

theorem ioError_congr {fs fs' : FileSystem} (h : fs'.os = fs.os) (what : String) (call : Call)
    (t : Text) : ioError fs' what call t = ioError fs what call t := by
  rw [ioError, ioError, FileSystem.locate_congr h, h]

/-- How far a write comes depends on the operating system alone. -/
theorem taken_withTmp (bytes : Bytes) :
    ops.taken (ops.withTmp fs p bytes) p data = ops.taken fs p data := by
  rw [taken, taken, withTmp_locate, withTmp_os]

theorem writeRefused_withTmp (bytes : Bytes) :
    ops.WriteRefused (ops.withTmp fs p bytes) p data ↔ ops.WriteRefused fs p data := by
  rw [WriteRefused, WriteRefused, withTmp_locate, withTmp_os]

/-- A write that fails leaves something out. -/
theorem taken_lt_of_refused (hw : ops.WriteRefused fs p data) :
    ops.taken fs p data < data.length := by
  have hpos := List.length_pos_iff.mpr hw.1
  unfold taken
  split
  · exact hpos
  · next hlen =>
    rw [if_pos (hw.2.resolve_right hlen)]
    exact lt_of_le_of_lt (min_le_right _ _) (Nat.sub_lt hpos Nat.one_pos)

/-- A part of the data goes behind what is there. -/
theorem OpensTmp.set_part (h : ops.OpensTmp fs p) {n k : ℕ} (hn : n + k ≤ data.length) :
    (ops.withTmp fs p (data.take n)).set (fs.locate (ops.tmpPath p)) (.file (Blocks.writeAt 0
        ((ops.withTmp fs p (data.take n)).bytesAt (fs.locate (ops.tmpPath p))) n
        ((data.drop n).take k))) = ops.withTmp fs p (data.take (n + k)) := by
  rw [FileSystem.bytesAt_of_file (h.node_tmp _), Blocks.writeAt_take 0 (by omega), withTmp,
    FileSystem.set_set]
  rfl

/-- Where `write_file` stands, in terms of the disk it started on. -/
def Stands (ops : FileOps) (fs : FileSystem) (p : String) (data : Bytes) :
    WritePhase × FileSystem → Prop
  | (.starting, fs') => fs' = fs
  | (.prepared, fs') => (ops.makeParents fs p).2 = true ∧ fs' = (ops.makeParents fs p).1
  | (.writing n, fs') => ops.OpensTmp fs p ∧ n ≤ ops.taken fs p data ∧
      fs' = ops.withTmp fs p (data.take n)
  | (.ended r, fs') => WriteEnds ops fs p data (r, fs')

/-- The scratch file is complete when it is renamed. -/
theorem Stands.complete {fs' : FileSystem}
    (h : Stands ops fs p data (.writing data.length, fs')) :
    ops.OpensTmp fs p ∧ ¬ ops.WriteRefused fs p data ∧ fs' = ops.withTmp fs p data := by
  obtain ⟨hopens, htaken, rfl⟩ := h
  refine ⟨hopens, fun hw => ?_, ?_⟩
  · exact absurd (taken_lt_of_refused hw) (Nat.not_lt.mpr htaken)
  · rw [List.take_length]

/-- **One call** leads from a known disk to a known one. -/
theorem Stands.step (h : Stands ops fs p data s)
    (hstep : WriteStep ops p data s s') : Stands ops fs p data s' := by
  cases hstep with
  | mkdirs hmade =>
    obtain rfl : _ = fs := h
    exact ⟨hmade, rfl⟩
  | mkdirsFailed hmade =>
    obtain rfl : _ = fs := h
    exact .unopened (fun ho => absurd (hmade.symm.trans ho.1) Bool.false_ne_true) _
  | openTmp hopen =>
    obtain ⟨hmade, rfl⟩ := h
    have hopens : ops.OpensTmp fs p :=
      ⟨hmade, (FileSystem.canOpenWrite_of_openTruncate hopen).1⟩
    refine ⟨hopens, Nat.zero_le _, ?_⟩
    rw [hopens.openTruncate] at hopen
    exact (Option.some.inj hopen).symm
  | openTmpFailed hopen =>
    obtain ⟨hmade, rfl⟩ := h
    refine .unopened (fun ho => ?_) _
    rw [ho.openTruncate] at hopen
    exact absurd hopen (by simp)
  | write hk hn =>
    obtain ⟨hopens, -, rfl⟩ := h
    rw [taken_withTmp] at hn
    refine ⟨hopens, hn, ?_⟩
    -- the scratch file holds as many bytes as were taken, whatever it held before
    rw [withTmp_locate, hopens.set_part (hn.trans taken_le)]
  | writeFailed hn hw =>
    obtain ⟨hopens, -, rfl⟩ := h
    -- all that the write would take is written when it fails
    rw [hn, taken_withTmp]
    exact .unwritten hopens ((writeRefused_withTmp _).mp hw) _
  | rename hrename =>
    obtain ⟨hopens, hwritten, rfl⟩ := Stands.complete h
    -- whether it is refused could be seen before the scratch file was opened
    by_cases hr : ops.RenameRefused fs p
    · rw [hopens.rename_of_refused hr] at hrename
      exact absurd hrename (by simp)
    · rw [hopens.rename hr] at hrename
      obtain rfl := Option.some.inj hrename
      exact .renamed hopens hwritten hr
  | renameFailed hrename =>
    obtain ⟨hopens, hwritten, rfl⟩ := Stands.complete h
    by_cases hr : ops.RenameRefused fs p
    · exact .unrenamed hopens hwritten hr _
    · rw [hopens.rename hr] at hrename
      exact absurd hrename (by simp)

/-- **The disk between any two calls.** -/
theorem stands_of_reach (h : WriteReach ops fs p data s) :
    Stands ops fs p data s := by
  induction h with
  | refl => rfl
  | tail _ hstep ih => exact ih.step hstep

/-! ### What the calls can come to -/

theorem OpensTmp.reach_writing (h : ops.OpensTmp fs p) (n : ℕ) (hn : n ≤ ops.taken fs p data) :
    WriteReach ops fs p data (.writing n, ops.withTmp fs p (data.take n)) := by
  induction n with
  | zero =>
    have hprepared : WriteReach ops fs p data (.prepared, (ops.makeParents fs p).1) :=
      .single (.mkdirs h.1)
    exact hprepared.tail (.openTmp h.openTruncate)
  | succ n ih =>
    -- byte after byte
    rw [← h.set_part (hn.trans taken_le), ← withTmp_locate (data.take n)]
    exact (ih (by omega)).tail (.write Nat.one_pos (by rwa [taken_withTmp]))

/-- **`write_file` is a run of its calls.** -/
theorem reach_writeFile : WriteReach ops fs p data
    (.ended (ops.writeFile fs p data).1, (ops.writeFile fs p data).2) := by
  rw [writeFile_eq]
  split
  · next hmade => exact .single (.mkdirsFailed hmade)
  next hmade =>
  have hprepared : WriteReach ops fs p data (.prepared, (ops.makeParents fs p).1) :=
    .single (.mkdirs (by simpa using hmade))
  split
  · next hopen =>
    rw [← ioError_congr makeParents_agree.os]
    exact hprepared.tail (.openTmpFailed hopen)
  next opened hopen =>
  have hopens : ops.OpensTmp fs p :=
    ⟨by simpa using hmade, (FileSystem.canOpenWrite_of_openTruncate hopen).1⟩
  obtain rfl : ops.withTmp fs p [] = opened :=
    Option.some.inj (hopens.openTruncate.symm.trans hopen)
  split
  · next hwrite =>
    have hw : ops.WriteRefused fs p data := by
      by_contra hc
      rw [hopens.pwrite hc] at hwrite
      exact absurd hwrite (by simp)
    -- the call that fails comes behind those that took something
    rw [hopens.torn_of_refused hw,
      ← ioError_congr (withTmp_os (data.take (ops.taken fs p data)))]
    exact (hopens.reach_writing _ le_rfl).tail
      (.writeFailed (taken_withTmp _).symm ((writeRefused_withTmp _).mpr hw))
  next written hwrite =>
  have hwritten : ¬ ops.WriteRefused fs p data := by
    intro hc
    rw [pwrite_of_refused hc] at hwrite
    exact absurd hwrite (by simp)
  obtain rfl : ops.withTmp fs p data = written :=
    Option.some.inj ((hopens.pwrite hwritten).symm.trans hwrite)
  have hcomplete : WriteReach ops fs p data (.writing data.length, ops.withTmp fs p data) := by
    have hreach := hopens.reach_writing data.length (taken_of_not_refused hwritten).ge
    rwa [List.take_length] at hreach
  split
  · next hrename =>
    rw [← ioError_congr (withTmp_os data)]
    exact hcomplete.tail (.renameFailed hrename)
  · next renamed hrename => exact hcomplete.tail (.rename hrename)

end Calls

/-! ### Isolated and atomic -/

/-- A call of `write_file` changes no file but its own, and between any two of its calls the
file is as it was or holds the data. -/
structure Replaces (ops : FileOps) (fs : FileSystem) (p : String) (data : Bytes) : Prop where
  isolated : ∀ r fs', WriteReach ops fs p data (.ended r, fs') →
    ∀ l ≠ fs.locate (ops.resolvePath p), fs'.fileAt l = fs.fileAt l
  atomic : ∀ phase fs', WriteReach ops fs p data (phase, fs') →
    fs'.fileAt (fs.locate (ops.resolvePath p)) = fs.fileAt (fs.locate (ops.resolvePath p)) ∨
      fs'.fileAt (fs.locate (ops.resolvePath p)) = some data

/-- The scratch file is in nobody's way. Where it is the local file itself, the states it goes
through while it is written are the old content or the new one. Where it is another file, what
is left of it is what was there: nothing when `write_file` succeeds, and what was written before
the call that failed when it does not. -/
structure ScratchHarmless (ops : FileOps) (fs : FileSystem) (p : String) (data : Bytes) :
    Prop where
  own : ops.OpensTmp fs p → fs.locate (ops.tmpPath p) = fs.locate (ops.resolvePath p) →
    data = [] ∨ fs.fileAt (fs.locate (ops.resolvePath p)) = some [] ∧
      (data.length = 1 ∨ ops.taken fs p data = 0)
  unwritten : ops.OpensTmp fs p → fs.locate (ops.tmpPath p) ≠ fs.locate (ops.resolvePath p) →
    ops.WriteRefused fs p data →
      fs.fileAt (fs.locate (ops.tmpPath p)) = some (data.take (ops.taken fs p data))
  unrenamed : ops.OpensTmp fs p → fs.locate (ops.tmpPath p) ≠ fs.locate (ops.resolvePath p) →
    ¬ ops.WriteRefused fs p data → ops.RenameRefused fs p →
      fs.fileAt (fs.locate (ops.tmpPath p)) = some data
  renamed : ops.OpensTmp fs p → fs.locate (ops.tmpPath p) ≠ fs.locate (ops.resolvePath p) →
    ¬ ops.WriteRefused fs p data → ¬ ops.RenameRefused fs p →
      fs.fileAt (fs.locate (ops.tmpPath p)) = none

section Replacement

variable {ops : FileOps} {fs : FileSystem} {p : String} {data : Bytes}

/-- What the rename leaves of the other files. -/
theorem OpensTmp.fileAt_renamed (h : ops.OpensTmp fs p) {l : Loc}
    (hl : l ≠ fs.locate (ops.resolvePath p)) :
    (ops.renamed fs p data).fileAt l =
      if l = fs.locate (ops.tmpPath p) then none else fs.fileAt l := by
  have hset : ((ops.withTmp fs p data).remove (fs.locate (ops.tmpPath p))).FilesAgree
      {fs.locate (ops.resolvePath p)} (ops.renamed fs p data) := .set _ (Set.mem_singleton _)
  rw [hset.fileAt hl]
  split
  · next heq =>
    have hfile : (ops.withTmp fs p data).node (fs.locate (ops.tmpPath p)) ≠ some .dir := by
      rw [h.node_tmp]
      simp
    rw [heq, FileSystem.fileAt, FileSystem.node_remove_self hfile]
  · next hne =>
    have hremove : (ops.withTmp fs p data).FilesAgree {fs.locate (ops.tmpPath p)}
        ((ops.withTmp fs p data).remove (fs.locate (ops.tmpPath p))) :=
      .remove (Set.mem_singleton _)
    rw [hremove.fileAt hne, fileAt_of_ne (Ne.symm hne)]

theorem ScratchHarmless.isolated (h : ops.ScratchHarmless fs p data)
    {r : Except ClientError Unit} {fs' : FileSystem} (hends : WriteEnds ops fs p data (r, fs'))
    {l : Loc} (hl : l ≠ fs.locate (ops.resolvePath p)) : fs'.fileAt l = fs.fileAt l := by
  by_cases htmp : fs.locate (ops.tmpPath p) = l
  · subst htmp
    cases hends with
    | unopened _ => exact fileAt_makeParents _
    | unwritten hopens hw =>
      rw [hopens.fileAt_tmp]
      exact (h.unwritten hopens hl hw).symm
    | unrenamed hopens hw hr =>
      rw [hopens.fileAt_tmp]
      exact (h.unrenamed hopens hl hw hr).symm
    | renamed hopens hw hr =>
      rw [hopens.fileAt_renamed hl, if_pos rfl]
      exact (h.renamed hopens hl hw hr).symm
  · cases hends with
    | unopened _ => exact fileAt_makeParents l
    | unwritten => exact fileAt_of_ne htmp _
    | unrenamed => exact fileAt_of_ne htmp _
    | renamed hopens => rw [hopens.fileAt_renamed hl, if_neg (Ne.symm htmp)]

/-- While it is written, the scratch file does not show as the local file. -/
theorem ScratchHarmless.atomic_writing (h : ops.ScratchHarmless fs p data)
    (hopens : ops.OpensTmp fs p) {n : ℕ} (hn : n ≤ ops.taken fs p data) :
    (ops.withTmp fs p (data.take n)).fileAt (fs.locate (ops.resolvePath p)) =
        fs.fileAt (fs.locate (ops.resolvePath p)) ∨
      (ops.withTmp fs p (data.take n)).fileAt (fs.locate (ops.resolvePath p)) = some data := by
  by_cases htmp : fs.locate (ops.tmpPath p) = fs.locate (ops.resolvePath p)
  swap
  · exact .inl (fileAt_of_ne htmp _)
  have hfile := hopens.fileAt_tmp (data.take n)
  rw [htmp] at hfile
  rw [hfile]
  obtain rfl | ⟨hold, hone⟩ := h.own hopens htmp
  · exact .inr (by simp)
  cases n with
  | zero =>
    left
    rw [hold, List.take_zero]
  | succ n =>
    -- a byte was written, so it was the only one
    obtain hone | hnone := hone
    · right
      rw [List.take_of_length_le (by omega)]
    · omega

theorem ScratchHarmless.atomic (h : ops.ScratchHarmless fs p data) {phase : WritePhase}
    {fs' : FileSystem} (hstands : Stands ops fs p data (phase, fs')) :
    fs'.fileAt (fs.locate (ops.resolvePath p)) = fs.fileAt (fs.locate (ops.resolvePath p)) ∨
      fs'.fileAt (fs.locate (ops.resolvePath p)) = some data := by
  cases phase with
  | starting =>
    obtain rfl : fs' = fs := hstands
    exact .inl rfl
  | prepared =>
    obtain ⟨-, rfl⟩ := hstands
    exact .inl (fileAt_makeParents _)
  | writing n =>
    obtain ⟨hopens, hn, rfl⟩ := hstands
    exact h.atomic_writing hopens hn
  | ended r =>
    cases hstands with
    | unopened _ => exact .inl (fileAt_makeParents _)
    | unwritten hopens => exact h.atomic_writing hopens le_rfl
    | unrenamed hopens hw =>
      have hwhole := h.atomic_writing hopens (taken_of_not_refused hw).ge
      rwa [List.take_length] at hwhole
    | renamed hopens _ hr =>
      exact .inr (FileSystem.fileAt_eq_some_iff.mpr (hopens.node_renamed hr))

/-- Where `write_file` ends, the other files are as they were. -/
theorem Replaces.fileAt_of_ends (h : ops.Replaces fs p data)
    {l : Loc} (hl : l ≠ fs.locate (ops.resolvePath p)) :
    ∃ r fs', WriteEnds ops fs p data (r, fs') ∧ fs'.fileAt l = fs.fileAt l :=
  ⟨_, _, writeEnds_writeFile, h.isolated _ _ reach_writeFile l hl⟩

/-- A local file that is its own scratch file shows what has been written. -/
theorem Replaces.own (h : ops.Replaces fs p data) (hopens : ops.OpensTmp fs p)
    (htmp : fs.locate (ops.tmpPath p) = fs.locate (ops.resolvePath p)) :
    data = [] ∨ fs.fileAt (fs.locate (ops.resolvePath p)) = some [] ∧
      (data.length = 1 ∨ ops.taken fs p data = 0) := by
  have hshows : ∀ n ≤ ops.taken fs p data,
      some (data.take n) = fs.fileAt (fs.locate (ops.resolvePath p)) ∨ data.take n = data := by
    intro n hn
    have hfile := hopens.fileAt_tmp (data.take n)
    rw [htmp] at hfile
    have hatomic := h.atomic _ _ (hopens.reach_writing n hn)
    rw [hfile] at hatomic
    exact hatomic.imp id Option.some.inj
  by_cases hnil : data = []
  · exact .inl hnil
  have hpos := List.length_pos_iff.mpr hnil
  have hempty : fs.fileAt (fs.locate (ops.resolvePath p)) = some [] := by
    obtain hold | hdata := hshows 0 (Nat.zero_le _)
    · exact hold.symm
    · exact absurd hdata.symm hnil
  refine .inr ⟨hempty, ?_⟩
  by_contra hc
  obtain ⟨hone, htaken⟩ := not_or.mp hc
  -- one byte of several is neither
  obtain hold | hdata := hshows 1 (Nat.pos_of_ne_zero htaken)
  · have hlength := congrArg List.length (Option.some.inj (hold.trans hempty))
    rw [List.length_take, List.length_nil] at hlength
    omega
  · have hlength := congrArg List.length hdata
    rw [List.length_take] at hlength
    omega

/-- **Replacing a local file is isolated and atomic if and only if** the scratch file is in
nobody's way. -/
theorem replaces_iff : ops.Replaces fs p data ↔ ops.ScratchHarmless fs p data := by
  constructor
  · intro h
    refine ⟨h.own, fun hopens htmp hw => ?_, fun hopens htmp hw hr => ?_,
      fun hopens htmp hw hr => ?_⟩
    · obtain ⟨r, fs', hends, hkept⟩ := h.fileAt_of_ends htmp
      cases hends with
      | unopened hc => exact absurd hopens hc
      | unwritten => exact hkept.symm.trans (hopens.fileAt_tmp _)
      | unrenamed _ hc => exact absurd hw hc
      | renamed _ hc => exact absurd hw hc
    · obtain ⟨r, fs', hends, hkept⟩ := h.fileAt_of_ends htmp
      cases hends with
      | unopened hc => exact absurd hopens hc
      | unwritten _ hc => exact absurd hc hw
      | unrenamed => exact hkept.symm.trans (hopens.fileAt_tmp data)
      | renamed _ _ hc => exact absurd hr hc
    · obtain ⟨r, fs', hends, hkept⟩ := h.fileAt_of_ends htmp
      cases hends with
      | unopened hc => exact absurd hopens hc
      | unwritten _ hc => exact absurd hc hw
      | unrenamed _ _ hc => exact absurd hc hr
      | renamed =>
        rw [hopens.fileAt_renamed htmp, if_pos rfl] at hkept
        exact hkept.symm
  · intro h
    refine ⟨fun r fs' hreach l hl => ?_, fun phase fs' hreach => ?_⟩
    · exact h.isolated (stands_of_reach hreach) hl
    · exact h.atomic (stands_of_reach hreach)

/-- The local file `f.txt` is replaced where no file `f.tmp` is. -/
theorem replaces_beside_nothing :
    FileOps.Replaces ⟨"c", 4096⟩ (FileSystem.single ['c'] "f.txt".toList (some [7])) "f.txt"
      [1, 2] := by
  refine replaces_iff.mpr ⟨fun _ hsame => ?_, fun _ _ hw => ?_,
    fun _ _ _ hr => ?_, fun _ _ _ _ => by decide⟩
  · exact absurd hsame (by decide)
  · exact absurd hw (fun hc => absurd (taken_lt_of_refused hc) (by decide))
  · obtain hc | hc := hr
    · exact absurd hc (by decide)
    · exact absurd (by decide) hc

/-- Replacing `f.txt` removes the user's file `f.tmp`, and a file `f.tmp` is empty while it is
replaced. -/
theorem not_replaces_beside_tmp :
    ¬ FileOps.Replaces ⟨"c", 4096⟩ (FileSystem.single ['c'] "f.tmp".toList (some [7])) "f.txt"
        [1, 2] ∧
      ¬ FileOps.Replaces ⟨"c", 4096⟩ (FileSystem.single ['c'] "f.tmp".toList (some [7])) "f.tmp"
        [1, 2] := by
  constructor
  · intro h
    have hkept := h.isolated _ _ reach_writeFile [['c'], "f.tmp".toList] (by decide)
    exact absurd hkept (by decide)
  · intro h
    have hopens : FileOps.OpensTmp ⟨"c", 4096⟩
        (FileSystem.single ['c'] "f.tmp".toList (some [7])) "f.tmp" := ⟨by decide, by decide⟩
    obtain hnil | ⟨hempty, -⟩ := h.own hopens (by decide)
    · exact absurd hnil (by decide)
    · exact absurd hempty (by decide)

end Replacement

end FileOps

end AdaptiveSync
