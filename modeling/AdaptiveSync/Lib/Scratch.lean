import AdaptiveSync.Lib.Blocks

/-!
# A file that is written through a scratch file

Writes go to a scratch file at their positions; a final write then moves the scratch file
over the file. The scratch file is not cleared before the first write, so what an earlier
writer left in it is still there between the writes.

* `writeAll_eq_iff`: two files are equal after the same writes exactly when they agree
  wherever no write reaches, up to the same end (`AgreeOff`).
* `Target.file_run_eq_iff`: the file after a sequence of writes is independent of what was
  in the scratch file exactly when nothing was final, or the leftovers agree outside the
  writes up to the first final one, or a later final write has replaced what that one put
  in place.
-/

namespace Blocks

variable {α : Type}

/-! ### Where writes reach -/

/-- Some write of the list covers position `j`. -/
def Covers (ws : List (ℕ × List α)) (j : ℕ) : Prop :=
  ∃ w ∈ ws, w.1 ≤ j ∧ j < w.1 + w.2.length

/-- How far the writes reach. A write of no cells reaches nowhere. -/
def extent (ws : List (ℕ × List α)) : ℕ :=
  ws.foldr (fun w n => if w.2 = [] then n else max (w.1 + w.2.length) n) 0

/-- The two files agree wherever no write reaches, and end together after them. -/
def AgreeOff (z : α) (ws : List (ℕ × List α)) (x y : List α) : Prop :=
  max x.length (extent ws) = max y.length (extent ws) ∧
    ∀ j, ¬ Covers ws j → x.getD j z = y.getD j z

theorem length_writeAll (z : α) (ws : List (ℕ × List α)) :
    ∀ x : List α, (writeAll z x ws).length = max x.length (extent ws) := by
  induction ws with
  | nil => intro x; simp [extent]
  | cons w ws ih =>
    intro x
    rw [writeAll_cons, ih]
    by_cases hnil : w.2 = []
    · simp [extent, hnil]
    · rw [length_writeAt z x w.1 hnil]
      simp only [extent, List.foldr_cons, hnil, if_false]
      omega

/-- A position no write reaches keeps its cell. -/
theorem getD_writeAll_of_not_covers (z : α) {ws : List (ℕ × List α)} {j : ℕ} :
    ∀ {x : List α}, ¬ Covers ws j → (writeAll z x ws).getD j z = x.getD j z := by
  induction ws with
  | nil => intro x _; rfl
  | cons w ws ih =>
    intro x h
    have hrest : ¬ Covers ws j := by
      rintro ⟨v, hv, hj⟩
      exact h ⟨v, List.mem_cons_of_mem w hv, hj⟩
    rw [writeAll_cons, ih hrest, getD_writeAt, if_neg]
    exact fun hj => h ⟨w, List.mem_cons_self, hj⟩

/-- A position that a write reaches no longer depends on what was there. -/
theorem getD_writeAll_of_covers (z : α) {ws : List (ℕ × List α)} {j : ℕ} :
    ∀ {x y : List α}, Covers ws j → (writeAll z x ws).getD j z = (writeAll z y ws).getD j z := by
  induction ws with
  | nil =>
    rintro x y ⟨w, hw, -⟩
    exact absurd hw List.not_mem_nil
  | cons w ws ih =>
    intro x y h
    rw [writeAll_cons, writeAll_cons]
    by_cases hrest : Covers ws j
    · exact ih hrest
    · -- the first write is the last one that reaches the position
      have hw : w.1 ≤ j ∧ j < w.1 + w.2.length := by
        obtain ⟨v, hv, hj⟩ := h
        obtain rfl | hv := List.mem_cons.mp hv
        · exact hj
        · exact absurd ⟨v, hv, hj⟩ hrest
      rw [getD_writeAll_of_not_covers z hrest, getD_writeAll_of_not_covers z hrest, getD_writeAt,
        getD_writeAt, if_pos hw, if_pos hw]

/-- **When writes hide what was there.** -/
theorem writeAll_eq_iff (z : α) (ws : List (ℕ × List α)) (x y : List α) :
    writeAll z x ws = writeAll z y ws ↔ AgreeOff z ws x y := by
  constructor
  · intro h
    refine ⟨?_, fun j hj => ?_⟩
    · rw [← length_writeAll z, ← length_writeAll z, h]
    · rw [← getD_writeAll_of_not_covers z hj, h, getD_writeAll_of_not_covers z hj]
  · rintro ⟨hlen, hcells⟩
    refine ext_getD z ?_ fun j _ => ?_
    · rw [length_writeAll, length_writeAll, hlen]
    · by_cases hj : Covers ws j
      · exact getD_writeAll_of_covers z hj
      · rw [getD_writeAll_of_not_covers z hj, getD_writeAll_of_not_covers z hj]
        exact hcells j hj

/-! ### A file and its scratch file -/

/-- A write to the scratch file; a final one then moves it over the file. -/
structure Write (α : Type) where
  offset : ℕ
  data : List α
  final : Bool

/-- A file, if it is there, and its scratch file. One that is not there counts as empty. -/
structure Target (α : Type) where
  file : Option (List α)
  scratch : List α

/-- One write. -/
def Target.step (z : α) (s : Target α) (w : Write α) : Target α :=
  if w.final then ⟨some (writeAt z s.scratch w.offset w.data), []⟩
  else ⟨s.file, writeAt z s.scratch w.offset w.data⟩

/-- A sequence of writes. -/
def Target.run (z : α) (s : Target α) (ws : List (Write α)) : Target α := ws.foldl (Target.step z) s

/-- What a write puts where. -/
def Write.place (w : Write α) : ℕ × List α := (w.offset, w.data)

/-- **What leftovers do not change**: nothing is final; or the leftovers agree outside the
writes up to the first final one; or a later final write replaces what that one put in
place. -/
def Hidden (z : α) (ws : List (Write α)) (x y : List α) : Prop :=
  (∀ w ∈ ws, w.final = false) ∨
    ∃ pre w post, ws = pre ++ w :: post ∧ (∀ v ∈ pre, v.final = false) ∧ w.final = true ∧
      (AgreeOff z ((pre ++ [w]).map Write.place) x y ∨ ∃ v ∈ post, v.final = true)

section Target

variable {z : α} {s : Target α}

theorem Target.run_append (ws vs : List (Write α)) :
    s.run z (ws ++ vs) = (s.run z ws).run z vs := List.foldl_append

/-- Writes that are not final fill the scratch file. -/
theorem Target.run_of_not_final {ws : List (Write α)} :
    ∀ {s : Target α}, (∀ w ∈ ws, w.final = false) →
      s.run z ws = ⟨s.file, writeAll z s.scratch (ws.map Write.place)⟩ := by
  induction ws with
  | nil => intro s _; rfl
  | cons w ws ih =>
    intro s h
    have hw := h w List.mem_cons_self
    have hstep : s.step z w = ⟨s.file, writeAt z s.scratch w.offset w.data⟩ := by
      rw [Target.step, hw]
      rfl
    calc s.run z (w :: ws)
        = Target.run z ⟨s.file, writeAt z s.scratch w.offset w.data⟩ ws :=
          congrArg (Target.run z · ws) hstep
      _ = ⟨s.file, writeAll z (writeAt z s.scratch w.offset w.data) (ws.map Write.place)⟩ :=
          ih fun v hv => h v (List.mem_cons_of_mem w hv)

/-- The first final write puts the scratch file in place. -/
theorem Target.run_of_first_final {pre : List (Write α)} {w : Write α}
    (hpre : ∀ v ∈ pre, v.final = false) (hw : w.final = true) :
    s.run z (pre ++ [w]) = ⟨some (writeAll z s.scratch ((pre ++ [w]).map Write.place)), []⟩ := by
  calc s.run z (pre ++ [w])
      = Target.step z ⟨s.file, writeAll z s.scratch (pre.map Write.place)⟩ w := by
        rw [Target.run_append, Target.run_of_not_final hpre]
        rfl
    _ = ⟨some (writeAt z (writeAll z s.scratch (pre.map Write.place)) w.offset w.data), []⟩ := by
        rw [Target.step, hw]
        rfl
    _ = ⟨some (writeAll z s.scratch ((pre ++ [w]).map Write.place)), []⟩ := by
        rw [List.map_append, writeAll_append]
        rfl

/-- Behind a final write nothing of the file before is left. -/
theorem Target.file_run_of_final {ws : List (Write α)} (h : ∃ v ∈ ws, v.final = true)
    (f g : Option (List α)) (x : List α) :
    (Target.run z ⟨f, x⟩ ws).file = (Target.run z ⟨g, x⟩ ws).file := by
  induction ws generalizing f g x with
  | nil =>
    obtain ⟨v, hv, -⟩ := h
    exact absurd hv List.not_mem_nil
  | cons w ws ih =>
    change (Target.run z (Target.step z ⟨f, x⟩ w) ws).file =
      (Target.run z (Target.step z ⟨g, x⟩ w) ws).file
    cases hw : w.final with
    | true => simp only [Target.step, hw, if_true]
    | false =>
      obtain ⟨v, hv, hfinal⟩ := h
      obtain rfl | hv := List.mem_cons.mp hv
      · exact absurd (hw.symm.trans hfinal) (by simp)
      simp only [Target.step, hw, Bool.false_eq_true, if_false]
      exact ih ⟨v, hv, hfinal⟩ f g _

/-- A list of writes has a first final one, or none. -/
theorem exists_first_final (ws : List (Write α)) :
    (∀ w ∈ ws, w.final = false) ∨ ∃ pre w post, ws = pre ++ w :: post ∧
      (∀ v ∈ pre, v.final = false) ∧ w.final = true := by
  induction ws with
  | nil => exact .inl (by simp)
  | cons w ws ih =>
    cases hw : w.final with
    | true => exact .inr ⟨[], w, ws, rfl, by simp, hw⟩
    | false =>
      obtain hnone | ⟨pre, v, post, rfl, hpre, hv⟩ := ih
      · exact .inl (List.forall_mem_cons.mpr ⟨hw, hnone⟩)
      · exact .inr ⟨w :: pre, v, post, rfl, List.forall_mem_cons.mpr ⟨hw, hpre⟩, hv⟩

/-- There is one first final write. -/
theorem eq_of_first_final {pre pre' post post' : List (Write α)} {w w' : Write α}
    (h : pre ++ w :: post = pre' ++ w' :: post') (hpre : ∀ v ∈ pre, v.final = false)
    (hw : w.final = true) (hpre' : ∀ v ∈ pre', v.final = false) (hw' : w'.final = true) :
    pre = pre' ∧ w = w' ∧ post = post' := by
  induction pre generalizing pre' with
  | nil =>
    cases pre' with
    | nil => exact ⟨rfl, List.cons.inj h⟩
    | cons v vs =>
      obtain ⟨rfl, -⟩ := List.cons.inj h
      exact absurd ((hpre' w List.mem_cons_self).symm.trans hw) (by simp)
  | cons u us ih =>
    cases pre' with
    | nil =>
      obtain ⟨rfl, -⟩ := List.cons.inj h
      exact absurd ((hpre u List.mem_cons_self).symm.trans hw') (by simp)
    | cons v vs =>
      obtain ⟨rfl, hrest⟩ := List.cons.inj h
      obtain ⟨rfl, rfl, rfl⟩ := ih hrest (fun x hx => hpre x (List.mem_cons_of_mem u hx))
        fun x hx => hpre' x (List.mem_cons_of_mem u hx)
      exact ⟨rfl, rfl, rfl⟩

/-- A final write puts the same file in place exactly when it is followed by another one, or
when the leftovers are hidden by the writes up to it. -/
theorem Target.file_run_eq_iff_of_first_final {pre post : List (Write α)} {w : Write α}
    (hpre : ∀ v ∈ pre, v.final = false) (hw : w.final = true) (f : Option (List α))
    (x y : List α) :
    (Target.run z ⟨f, x⟩ (pre ++ w :: post)).file = (Target.run z ⟨f, y⟩ (pre ++ w :: post)).file ↔
      AgreeOff z ((pre ++ [w]).map Write.place) x y ∨ ∃ v ∈ post, v.final = true := by
  rw [List.append_cons, Target.run_append (pre ++ [w]), Target.run_append (pre ++ [w]),
    Target.run_of_first_final hpre hw, Target.run_of_first_final hpre hw, ← writeAll_eq_iff]
  by_cases hpost : ∃ v ∈ post, v.final = true
  · exact iff_of_true (Target.file_run_of_final hpost _ _ _) (.inr hpost)
  · have hnone : ∀ v ∈ post, v.final = false := fun v hv => by
      by_contra hv'
      exact hpost ⟨v, hv, by simpa using hv'⟩
    rw [Target.run_of_not_final hnone, Target.run_of_not_final hnone]
    simp only [Option.some.injEq, hpost, or_false]

/-- **When leftovers in the scratch file do not matter.** -/
theorem Target.file_run_eq_iff (ws : List (Write α)) (f : Option (List α)) (x y : List α) :
    (Target.run z ⟨f, x⟩ ws).file = (Target.run z ⟨f, y⟩ ws).file ↔ Hidden z ws x y := by
  obtain hnone | ⟨pre, w, post, rfl, hpre, hw⟩ := exists_first_final ws
  · rw [Target.run_of_not_final hnone, Target.run_of_not_final hnone]
    exact iff_of_true rfl (.inl hnone)
  rw [Target.file_run_eq_iff_of_first_final hpre hw f x y]
  constructor
  · exact fun h => .inr ⟨pre, w, post, rfl, hpre, hw, h⟩
  · rintro (hnone | ⟨pre', w', post', heq, hpre', hw', h⟩)
    · exact absurd ((hnone w (by simp)).symm.trans hw) (by simp)
    · -- the first final write is the first final write
      obtain ⟨rfl, rfl, rfl⟩ := eq_of_first_final heq hpre hw hpre' hw'
      exact h

end Target

end Blocks
