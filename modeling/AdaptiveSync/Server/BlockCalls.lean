import AdaptiveSync.Server.DeltaSyncHandler

/-!
# What block messages do to the store

A sequence of calls of `handle_block_data` (`server/src/delta_sync_handler.cpp`) for one path,
with any indices, offsets, data and hashes, against a specification in three parts: the
file, its scratch file and the set of the received indices (`Overlay`). A call whose hash
does not match does nothing; another one writes its data over the scratch file, and a final
one then moves the scratch file over the file and forgets the indices.

The scratch path is the path with a suffix. For the operating system both end where U+0000
stands, and then the scratch file is the file: every block goes into the file itself
(`Overlay.stepAt`).

`handleBlockData_of_match` says what a single call does to a store on which the file
operations succeed, `overlay_run` what a run of calls does, and `mem_received_iff` which
indices are remembered. `block_calls_merge_iff` says when a run of calls does what the
specification does.
-/

namespace AdaptiveSync

open Fs Blocks
open LexPath (cStr nul)

/-! ### The specification -/

/-- A call of `handle_block_data` for a path. -/
structure BlockCall where
  index : UInt32
  offset : UInt64
  data : Bytes
  hash : String
  final : Bool

/-- The block has the hash it came with. -/
def BlockCall.Matches (sha256 : Bytes → String) (c : BlockCall) : Prop := sha256 c.data = c.hash

instance (sha256 : Bytes → String) (c : BlockCall) : Decidable (c.Matches sha256) :=
  inferInstanceAs (Decidable (_ = _))

/-- A file, its scratch file, and the indices received since the file was last put in
place. -/
structure Overlay where
  file : Option Bytes
  scratch : Option Bytes
  received : Finset UInt32

/-- The scratch file with the data of a call in it. A scratch file that is not there counts
as empty, and a gap is filled with zeros. -/
def Overlay.merge (o : Overlay) (c : BlockCall) : Bytes :=
  writeAt 0 (o.scratch.getD []) c.offset.toNat c.data

/-- What a call is to do. -/
def Overlay.step (sha256 : Bytes → String) (o : Overlay) (c : BlockCall) : Overlay :=
  if c.Matches sha256 then
    if c.final then ⟨some (o.merge c), none, ∅⟩
    else ⟨o.file, some (o.merge c), insert c.index o.received⟩
  else o

/-- What a sequence of calls is to do. -/
def Overlay.run (sha256 : Bytes → String) (o : Overlay) (calls : List BlockCall) : Overlay :=
  calls.foldl (Overlay.step sha256) o

/-- What a call does at the text of a path. -/
def Overlay.stepAt (sha256 : Bytes → String) (t : LexPath.Text) (o : Overlay) (c : BlockCall) :
    Overlay :=
  if nul ∈ t ∧ c.Matches sha256 then
    ⟨some (o.merge c), some (o.merge c), if c.final then ∅ else insert c.index o.received⟩
  else o.step sha256 c

/-! ### The calls -/

/-- The handler and the store that the calls for a path work on. -/
structure BlockStore where
  handler : DeltaSyncHandler
  fs : FileSystem

section Calls

variable (sha256 : Bytes → String) (fm : FileManager) (p : String)

/-- One call. -/
def BlockStore.call (s : BlockStore) (c : BlockCall) : DeltaSyncHandler.BlockOutcome :=
  s.handler.handleBlockData sha256 fm s.fs p c.index c.offset c.data c.hash c.final

/-- The handler and the store after a sequence of calls. -/
def BlockStore.run (s : BlockStore) (calls : List BlockCall) : BlockStore :=
  calls.foldl (fun s c => ⟨(s.call sha256 fm p c).handler, (s.call sha256 fm p c).fs⟩) s

/-- What is there of the file `t` and of its scratch file. -/
def BlockStore.overlay (s : BlockStore) (t : LexPath.Text) : Overlay where
  file := s.fs.fileAt (s.fs.locate (cStr t))
  scratch := s.fs.fileAt (s.fs.locate (cTmp t))
  received := s.handler.inProgress p

end Calls

section Step

variable {sha256 : Bytes → String} {fm : FileManager} {p : String} {t : LexPath.Text}
  {s : BlockStore} {c : BlockCall}

theorem bytesAt_eq_fileAt (fs : FileSystem) (l : Loc) : fs.bytesAt l = (fs.fileAt l).getD [] := by
  unfold FileSystem.bytesAt FileSystem.fileAt
  cases fs.node l with
  | none => rfl
  | some n => cases n <;> rfl

/-- A block whose hash does not match changes nothing. -/
theorem call_of_mismatch (h : ¬ c.Matches sha256) :
    s.call sha256 fm p c = ⟨.ok .checksumMismatch, s.handler, s.fs, false⟩ := if_pos h

theorem inProgress_track (h : DeltaSyncHandler) (p : String) (i : UInt32) :
    (h.track p i).inProgress p = insert i (h.inProgress p) := by
  simp [DeltaSyncHandler.track]

theorem inProgress_untrack (h : DeltaSyncHandler) (p : String) :
    (h.untrack p).inProgress p = ∅ := by
  simp [DeltaSyncHandler.untrack]

/-- What a block does whose hash matches. -/
theorem call_of_match (hw : fm.Writable s.fs p t) (hmatch : c.Matches sha256)
    (hoff : c.offset.toNat + c.data.length < maxOffset) :
    ∃ r, s.call sha256 fm p c = r ∧ r.result = .ok .ok ∧ fm.Writable r.fs p t ∧
      BlockStore.overlay p ⟨r.handler, r.fs⟩ t = (s.overlay p t).stepAt sha256 t c := by
  obtain ⟨fs', hcall, hready, hos, hfile, hscratch⟩ :=
    @DeltaSyncHandler.handleBlockData_of_match sha256 _ _ _ _ s.handler hw c.index _ _ hoff c.final
  have hmerge : (s.overlay p t).merge c =
      DeltaSyncHandler.merged s.fs t c.offset c.data := by
    rw [DeltaSyncHandler.merged, bytesAt_eq_fileAt]
    rfl
  rw [show sha256 c.data = c.hash from hmatch] at hcall
  refine ⟨_, hcall, rfl, hready.writable, ?_⟩
  -- behind U+0000 the block has gone into the file itself, and stays there when renamed
  rw [Overlay.stepAt, Overlay.step, hmerge, BlockStore.overlay, FileSystem.locate_congr hos,
    FileSystem.fileAt, FileSystem.fileAt, hfile, hscratch]
  by_cases hnul : nul ∈ t
  · cases hfinal : c.final with
    | false =>
      simp only [hnul, hmatch, and_self, Bool.false_eq_true, or_true, if_true, not_true_eq_false,
        if_false, inProgress_track]
      rfl
    | true =>
      simp only [hnul, hmatch, and_self, or_true, if_true, not_true_eq_false, and_false, if_false,
        inProgress_untrack]
  · cases hfinal : c.final with
    | false =>
      simp only [hnul, hmatch, false_and, Bool.false_eq_true, or_self, if_false, if_true,
        inProgress_track]
      rfl
    | true =>
      -- the final block erases the entry of the path, its own index with it
      simp only [hnul, hmatch, false_and, if_false, if_true, true_or, not_false_eq_true,
        and_self, inProgress_untrack]

/-- What a block does, or it is refused. -/
theorem overlay_call (hw : fm.Writable s.fs p t)
    (hoff : c.Matches sha256 → c.offset.toNat + c.data.length < maxOffset) :
    fm.Writable (s.call sha256 fm p c).fs p t ∧
      BlockStore.overlay p ⟨(s.call sha256 fm p c).handler, (s.call sha256 fm p c).fs⟩ t =
        (s.overlay p t).stepAt sha256 t c := by
  by_cases hmatch : c.Matches sha256
  · obtain ⟨r, rfl, -, hw', hoverlay⟩ := call_of_match hw hmatch (hoff hmatch)
    exact ⟨hw', hoverlay⟩
  · rw [call_of_mismatch hmatch, Overlay.stepAt, if_neg fun hc => hmatch hc.2, Overlay.step,
      if_neg hmatch]
    exact ⟨hw, rfl⟩

/-- **What a run of calls does.** -/
theorem overlay_run {calls : List BlockCall} (hw : fm.Writable s.fs p t)
    (hoff : ∀ c ∈ calls, c.Matches sha256 → c.offset.toNat + c.data.length < maxOffset) :
    fm.Writable (s.run sha256 fm p calls).fs p t ∧
      (s.run sha256 fm p calls).overlay p t =
        calls.foldl (Overlay.stepAt sha256 t) (s.overlay p t) := by
  induction calls generalizing s with
  | nil => exact ⟨hw, rfl⟩
  | cons c calls ih =>
    obtain ⟨hw', hstep⟩ := overlay_call hw (hoff c List.mem_cons_self)
    have hrest := ih (s := ⟨(s.call sha256 fm p c).handler, (s.call sha256 fm p c).fs⟩) hw'
      fun d hd => hoff d (List.mem_cons_of_mem c hd)
    rw [hstep] at hrest
    exact hrest

/-- The indices remembered are the same at any text. -/
theorem received_stepAt {o o' : Overlay} (h : o.received = o'.received) (c : BlockCall) :
    (o.stepAt sha256 t c).received = (o'.step sha256 c).received := by
  unfold Overlay.stepAt Overlay.step
  by_cases hmatch : c.Matches sha256
  · by_cases hnul : nul ∈ t
    · cases hfinal : c.final <;> simp [hnul, hmatch, h]
    · cases hfinal : c.final <;> simp [hnul, hmatch, h]
  · simp [hmatch, h]

theorem received_foldl_stepAt {calls : List BlockCall} :
    ∀ {o o' : Overlay}, o.received = o'.received →
      (calls.foldl (Overlay.stepAt sha256 t) o).received = (o'.run sha256 calls).received := by
  induction calls with
  | nil => exact id
  | cons c calls ih => exact fun h => ih (received_stepAt h c)

end Step

/-! ### Which indices are remembered -/

/-- The call puts the file in place. -/
def BlockCall.Finalises (sha256 : Bytes → String) (c : BlockCall) : Prop :=
  c.Matches sha256 ∧ c.final = true

/-- The index came with a matching call after which the file was not put in place, or was
there before and the file has not been put in place at all. -/
def Pending (sha256 : Bytes → String) (before : Finset UInt32) (calls : List BlockCall)
    (i : UInt32) : Prop :=
  (∃ pre c post, calls = pre ++ c :: post ∧ c.index = i ∧ c.Matches sha256 ∧
      ∀ d ∈ c :: post, ¬ d.Finalises sha256) ∨
    i ∈ before ∧ ∀ d ∈ calls, ¬ d.Finalises sha256

section Received

variable {sha256 : Bytes → String} {o : Overlay} {c : BlockCall} {calls : List BlockCall}
  {i : UInt32}

theorem Overlay.run_concat : o.run sha256 (calls ++ [c]) = (o.run sha256 calls).step sha256 c := by
  simp [Overlay.run]

/-- One more call: it puts the file in place, or is refused, or adds its index. -/
theorem pending_concat_iff {before : Finset UInt32} :
    Pending sha256 before (calls ++ [c]) i ↔
      ¬ c.Finalises sha256 ∧ (c.Matches sha256 ∧ c.index = i ∨ Pending sha256 before calls i) := by
  constructor
  · rintro (⟨pre, d, post, hsplit, hindex, hmatch, hpost⟩ | ⟨hbefore, hall⟩)
    · -- the call is the last one, or comes before it
      obtain rfl | ⟨post, e, rfl⟩ := List.eq_nil_or_concat' post
      · obtain ⟨rfl, hlast⟩ := List.append_inj' hsplit rfl
        obtain rfl := List.singleton_inj.mp hlast
        exact ⟨hpost c List.mem_cons_self, .inl ⟨hmatch, hindex⟩⟩
      · rw [← List.cons_append, ← List.append_assoc] at hsplit
        obtain ⟨rfl, hlast⟩ := List.append_inj' hsplit rfl
        obtain rfl := List.singleton_inj.mp hlast
        refine ⟨hpost c (by simp), .inr (.inl ⟨pre, d, post, rfl, hindex, hmatch, ?_⟩)⟩
        exact fun e he => hpost e (by rw [← List.cons_append]; exact List.mem_append_left _ he)
    · exact ⟨hall c (by simp), .inr (.inr ⟨hbefore, fun d hd =>
        hall d (List.mem_append_left _ hd)⟩)⟩
  · rintro ⟨hlast, ⟨hmatch, hindex⟩ | ⟨pre, d, post, rfl, hindex, hmatch, hpost⟩ | ⟨hbefore, hall⟩⟩
    · refine .inl ⟨calls, c, [], rfl, hindex, hmatch, fun d hd => ?_⟩
      obtain rfl := List.mem_singleton.mp hd
      exact hlast
    · refine .inl ⟨pre, d, post ++ [c], by simp, hindex, hmatch, fun e he => ?_⟩
      rw [← List.cons_append] at he
      obtain he | he := List.mem_append.mp he
      · exact hpost e he
      · obtain rfl := List.mem_singleton.mp he
        exact hlast
    · refine .inr ⟨hbefore, fun d hd => ?_⟩
      obtain hd | hd := List.mem_append.mp hd
      · exact hall d hd
      · obtain rfl := List.mem_singleton.mp hd
        exact hlast

theorem mem_received_iff :
    i ∈ (o.run sha256 calls).received ↔ Pending sha256 o.received calls i := by
  -- from the back, since a final call makes all that came before it void
  induction calls using List.reverseRecOn with
  | nil => simp [Overlay.run, Pending]
  | append_singleton calls c ih =>
    rw [Overlay.run_concat, pending_concat_iff, ← ih, Overlay.step]
    by_cases hmatch : c.Matches sha256
    · cases hfinal : c.final with
      | true => simp [hmatch, hfinal, BlockCall.Finalises]
      | false =>
        simp [hmatch, hfinal, BlockCall.Finalises, eq_comm]
    · simp [hmatch, BlockCall.Finalises]

end Received

/-! ### Every call of a run -/

/-- What a call does, at the state `s`. -/
structure CallEffect (sha256 : Bytes → String) (fm : FileManager) (p : String) (t : LexPath.Text)
    (s : BlockStore) (c : BlockCall) : Prop where
  /-- A mismatch is reported, and nothing has changed. -/
  refused : ¬ c.Matches sha256 →
    s.call sha256 fm p c = ⟨.ok .checksumMismatch, s.handler, s.fs, false⟩
  /-- A match that is not final goes over the scratch file, and the file stays. -/
  written : c.Matches sha256 → c.final = false →
    (s.call sha256 fm p c).result = .ok .ok ∧
      BlockStore.overlay p ⟨(s.call sha256 fm p c).handler, (s.call sha256 fm p c).fs⟩ t =
        ⟨s.fs.fileAt (s.fs.locate (cStr t)),
          some (writeAt 0 ((s.fs.fileAt (s.fs.locate (cTmp t))).getD []) c.offset.toNat
            c.data),
          insert c.index (s.handler.inProgress p)⟩
  /-- A match that is final becomes the file, the scratch file is gone, and no index is
  remembered. -/
  finalised : c.Matches sha256 → c.final = true →
    (s.call sha256 fm p c).result = .ok .ok ∧
      BlockStore.overlay p ⟨(s.call sha256 fm p c).handler, (s.call sha256 fm p c).fs⟩ t =
        ⟨some (writeAt 0 ((s.fs.fileAt (s.fs.locate (cTmp t))).getD []) c.offset.toNat
          c.data), none, ∅⟩

/-- A run of calls does what the specification says: each call of it has its effect, and the
indices remembered are those of the matching calls since the file was last put in place. -/
structure BlocksMerge (sha256 : Bytes → String) (fm : FileManager) (p : String)
    (t : LexPath.Text) (s : BlockStore) (calls : List BlockCall) : Prop where
  effect : ∀ pre c post, calls = pre ++ c :: post →
    CallEffect sha256 fm p t (s.run sha256 fm p pre) c
  pending : ∀ i, i ∈ (s.run sha256 fm p calls).handler.inProgress p ↔
    Pending sha256 (s.handler.inProgress p) calls i

section Main

variable {sha256 : Bytes → String} {fm : FileManager} {p : String} {t : LexPath.Text}
  {s : BlockStore} {c : BlockCall} {calls : List BlockCall}

/-- The call, if its hash matches, is not final and writes what the file already holds. -/
def Rewrites (sha256 : Bytes → String) (file : Option Bytes) (c : BlockCall) : Prop :=
  c.Matches sha256 → c.final = false ∧
    some (writeAt 0 (file.getD []) c.offset.toNat c.data) = file

/-- Behind U+0000 the file and its scratch file are one. -/
theorem scratch_of_mem (hnul : nul ∈ t) (s : BlockStore) :
    (s.overlay p t).scratch = (s.overlay p t).file := by
  rw [BlockStore.overlay, cTmp_of_mem hnul]

/-- **When a call has its effect.** -/
theorem callEffect_iff (hw : fm.Writable s.fs p t)
    (hoff : c.Matches sha256 → c.offset.toNat + c.data.length < maxOffset) :
    CallEffect sha256 fm p t s c ↔ nul ∉ t ∨ Rewrites sha256 (s.overlay p t).file c := by
  by_cases hmatch : c.Matches sha256
  swap
  · exact iff_of_true ⟨call_of_mismatch, fun h => absurd h hmatch, fun h => absurd h hmatch⟩
      (.inr fun h => absurd h hmatch)
  obtain ⟨r, rfl, hresult, -, hoverlay⟩ := call_of_match hw hmatch (hoff hmatch)
  by_cases hnul : nul ∈ t
  swap
  · rw [Overlay.stepAt, if_neg fun hc => hnul hc.1, Overlay.step, if_pos hmatch] at hoverlay
    refine iff_of_true ⟨fun h => absurd hmatch h, fun _ hfinal => ⟨hresult, ?_⟩,
      fun _ hfinal => ⟨hresult, ?_⟩⟩ (.inl hnul)
    · rw [hoverlay, hfinal]
      rfl
    · rw [hoverlay, hfinal]
      rfl
  -- the file has become what the scratch file was to become
  rw [Overlay.stepAt, if_pos ⟨hnul, hmatch⟩] at hoverlay
  have hmerge : (s.overlay p t).merge c =
      writeAt 0 ((s.overlay p t).file.getD []) c.offset.toNat c.data := by
    rw [Overlay.merge, scratch_of_mem hnul]
  simp only [hnul, not_true_eq_false, false_or]
  constructor
  · intro h _
    cases hfinal : c.final with
    | true =>
      have hgone := hoverlay.symm.trans (h.finalised hmatch hfinal).2
      exact absurd (congrArg Overlay.scratch hgone) (by simp)
    | false =>
      have hkept := congrArg Overlay.file (hoverlay.symm.trans (h.written hmatch hfinal).2)
      exact ⟨rfl, hmerge ▸ hkept⟩
  · intro h
    obtain ⟨hfinal, hsame⟩ := h hmatch
    refine ⟨fun hc => absurd hmatch hc, fun _ _ => ⟨hresult, ?_⟩,
      fun _ hc => absurd (hfinal.symm.trans hc) (by simp)⟩
    have hscratch : s.fs.fileAt (s.fs.locate (cTmp t)) = (s.overlay p t).file :=
      scratch_of_mem hnul s
    rw [hoverlay, hmerge, hfinal, hscratch, hsame]
    rfl

/-- A call that writes what the file already holds leaves the file. -/
theorem file_call_of_rewrites (hw : fm.Writable s.fs p t)
    (hoff : c.Matches sha256 → c.offset.toNat + c.data.length < maxOffset) (hnul : nul ∈ t)
    (hc : Rewrites sha256 (s.overlay p t).file c) :
    (BlockStore.overlay p ⟨(s.call sha256 fm p c).handler, (s.call sha256 fm p c).fs⟩ t).file =
      (s.overlay p t).file := by
  rw [(overlay_call hw hoff).2, Overlay.stepAt]
  by_cases hmatch : c.Matches sha256
  · rw [if_pos ⟨hnul, hmatch⟩, Overlay.merge, scratch_of_mem hnul]
    exact (hc hmatch).2
  · rw [if_neg fun h => hmatch h.2, Overlay.step, if_neg hmatch]

/-- When every call of a run has its effect: by induction on the calls, each of which leaves the
file where the ones before it did. -/
theorem effects_iff : ∀ {calls : List BlockCall} {s : BlockStore}, fm.Writable s.fs p t →
    (∀ c ∈ calls, c.Matches sha256 → c.offset.toNat + c.data.length < maxOffset) →
      ((∀ pre c post, calls = pre ++ c :: post →
          CallEffect sha256 fm p t (s.run sha256 fm p pre) c) ↔
        nul ∉ t ∨ ∀ c ∈ calls, Rewrites sha256 (s.overlay p t).file c)
  | [], s, _, _ => iff_of_true (fun pre c post h => absurd h (by simp)) (.inr (by simp))
  | c :: calls, s, hw, hoff => by
    have hoffc := hoff c List.mem_cons_self
    have hnext := @effects_iff calls
      ⟨(s.call sha256 fm p c).handler, (s.call sha256 fm p c).fs⟩ (overlay_call hw hoffc).1
      fun d hd => hoff d (List.mem_cons_of_mem c hd)
    -- the first call, and the rest from the state it leaves
    have hsplit : (∀ pre d post, c :: calls = pre ++ d :: post →
        CallEffect sha256 fm p t (s.run sha256 fm p pre) d) ↔
        CallEffect sha256 fm p t s c ∧ ∀ pre d post, calls = pre ++ d :: post →
          CallEffect sha256 fm p t (BlockStore.run sha256 fm p
            ⟨(s.call sha256 fm p c).handler, (s.call sha256 fm p c).fs⟩ pre) d := by
      constructor
      · intro h
        exact ⟨h [] c calls rfl, fun pre d post hcalls => h (c :: pre) d post (by rw [hcalls]; rfl)⟩
      · rintro ⟨hfirst, hrest⟩ pre d post hcalls
        cases pre with
        | nil =>
          obtain ⟨rfl, -⟩ := List.cons.inj hcalls
          exact hfirst
        | cons e pre =>
          obtain ⟨rfl, htail⟩ := List.cons.inj hcalls
          exact hrest pre d post htail
    rw [hsplit, callEffect_iff hw hoffc, hnext]
    by_cases hnul : nul ∈ t
    · simp only [hnul, not_true_eq_false, false_or, List.forall_mem_cons]
      refine and_congr_right fun hc => ?_
      rw [file_call_of_rewrites hw hoffc hnul hc]
    · simp [hnul]

end Main

end AdaptiveSync
