import Mathlib.Logic.Function.Basic
import Mathlib.Logic.Relation

/-!
# Programs that share a state

A program is a sequence of calls. A call acts on the state in one piece, and returns a value
that the rest of the program depends on (`Script`). Alone, a program runs from a state to its
end (`Script.run`). In a pool (`Pool`) the calls of several programs take turns on one state, in
any order, so that between two calls of a program there can be any number of those of the
others.

`Script.Meets R G Q` is the statement that is made of a program in such a pool: as long as the
others change the state only as `R` says, the program changes it only as `G` says, and what it
returns satisfies `Q`.

* `Script.Meets.lift_bind`, `Script.Meets.bind`: calls and sequences.
* `Script.Meets.frame`: what neither the program nor the others touch.
* `Script.Meets.run`: the program alone.
* `Pool.meets_of_reach`: the programs of a pool, if each does what the others rely on.
-/

namespace Shared

open Relation Function

/-! ### Programs -/

/-- A program on the state `σ` that returns an `α`. -/
inductive Script (σ α : Type) : Type 1
  | ret (a : α)
  | call {β : Type} (act : σ → β × σ) (next : β → Script σ α)

namespace Script

variable {σ α β γ : Type}

/-- One program after another. -/
def bind : Script σ α → (α → Script σ γ) → Script σ γ
  | .ret a, f => f a
  | .call act next, f => .call act fun b => (next b).bind f

instance : Monad (Script σ) where
  pure := .ret
  bind := .bind

/-- A program of one call. -/
def lift (act : σ → β × σ) : Script σ β := .call act .ret

/-- A call that does not change the state. -/
def look (f : σ → β) : Script σ β := lift fun s => (f s, s)

/-- A call that can fail, and then does not change the state. -/
def attempt (op : σ → Option σ) : Script σ Bool :=
  lift fun s => match op s with
    | none => (false, s)
    | some s' => (true, s')

/-- The program alone: what it returns, and the state it leaves. -/
def run : Script σ α → σ → α × σ
  | .ret a, s => (a, s)
  | .call act next, s => (next (act s).1).run (act s).2

@[simp] theorem run_pure (a : α) (s : σ) : (pure a : Script σ α).run s = (a, s) := rfl

@[simp] theorem run_lift (act : σ → β × σ) (s : σ) : (lift act).run s = act s := rfl

@[simp] theorem run_look (f : σ → β) (s : σ) : (look f).run s = (f s, s) := rfl

@[simp] theorem run_bind (p : Script σ α) (f : α → Script σ γ) (s : σ) :
    (p >>= f).run s = (f (p.run s).1).run (p.run s).2 := by
  induction p generalizing s with
  | ret a => rfl
  | call act next ih => exact ih (act s).1 (act s).2

@[simp] theorem run_attempt (op : σ → Option σ) (s : σ) :
    (attempt op).run s = match op s with
      | none => (false, s)
      | some s' => (true, s') := rfl

/-! ### A program among others -/

/-- What the others do keeps `I`. -/
def Stable (R : σ → σ → Prop) (I : σ → Prop) : Prop := ∀ s s', I s → R s s' → I s'

theorem Stable.many {R : σ → σ → Prop} {I : σ → Prop} (h : Stable R I) {s s' : σ} (hI : I s)
    (hs : ReflTransGen R s s') : I s' := by
  induction hs with
  | refl => exact hI
  | tail _ hstep ih => exact h _ _ ih hstep

/-- From the state `s`, and while the others only do what `R` says, every call is one that `G`
allows, and at the end, and ever after, `Q` holds of the value and the state. -/
def Meets (R G : σ → σ → Prop) (Q : α → σ → Prop) : Script σ α → σ → Prop
  | .ret a, s => ∀ s', ReflTransGen R s s' → Q a s'
  | .call act next, s => ∀ s', ReflTransGen R s s' →
      G s' (act s').2 ∧ (next (act s').1).Meets R G Q (act s').2

namespace Meets

variable {R R' G G' : σ → σ → Prop} {Q Q' : α → σ → Prop} {p : Script σ α} {s s' : σ}
  {I J : σ → Prop}

/-- The others may do something first. -/
theorem rely (h : p.Meets R G Q s) (hstep : R s s') : p.Meets R G Q s' := by
  cases p with
  | ret a => exact fun s'' hs => h s'' (.head hstep hs)
  | call act next => exact fun s'' hs => h s'' (.head hstep hs)

/-- **A call** in a state that the others keep. -/
theorem call {act : σ → β × σ} {next : β → Script σ α} (hstable : Stable R I) (hI : I s)
    (h : ∀ s, I s → G s (act s).2 ∧ (next (act s).1).Meets R G Q (act s).2) :
    (Script.call act next).Meets R G Q s :=
  fun s' hs => h s' (hstable.many hI hs)

theorem lift_bind {act : σ → β × σ} {next : β → Script σ α} (hstable : Stable R I) (hI : I s)
    (h : ∀ s, I s → G s (act s).2 ∧ (next (act s).1).Meets R G Q (act s).2) :
    (lift act >>= next).Meets R G Q s :=
  call hstable hI h

/-- A look at what the others keep. -/
theorem look_bind {f : σ → β} {b : β} {next : β → Script σ α} (hstable : Stable R I) (hI : I s)
    (hG : ∀ s, G s s) (hf : ∀ s, I s → f s = b) (h : ∀ s, I s → (next b).Meets R G Q s) :
    (look f >>= next).Meets R G Q s := by
  refine lift_bind hstable hI fun s hs => ⟨hG s, ?_⟩
  change (next (f s)).Meets R G Q s
  rw [hf s hs]
  exact h s hs

/-- A call that succeeds from what the others keep. -/
theorem attempt_bind {op : σ → Option σ} {next : Bool → Script σ α} (hstable : Stable R I)
    (hI : I s) (h : ∀ s, I s → ∃ s', op s = some s' ∧ G s s' ∧ (next true).Meets R G Q s') :
    (attempt op >>= next).Meets R G Q s := by
  refine lift_bind hstable hI fun s hs => ?_
  obtain ⟨s', hop, hG, hnext⟩ := h s hs
  simp only [hop]
  exact ⟨hG, hnext⟩

/-- The end of a program. -/
theorem ret {a : α} (hstable : Stable R I) (hI : I s) (h : ∀ s, I s → Q a s) :
    (pure a : Script σ α).Meets R G Q s :=
  fun s' hs => h s' (hstable.many hI hs)

/-- **One program after another.** -/
theorem bind {f : α → Script σ γ} {Q' : γ → σ → Prop} (h : p.Meets R G Q s)
    (hf : ∀ a s, Q a s → (f a).Meets R G Q' s) : (p >>= f).Meets R G Q' s := by
  induction p generalizing s with
  | ret a => exact hf a s (h s .refl)
  | call act next ih => exact fun s' hs => ⟨(h s' hs).1, ih _ (h s' hs).2⟩

/-- A program keeps what it promises to others who do less, with a weaker promise. -/
theorem mono (h : p.Meets R G Q s) (hR : ∀ s s', R' s s' → R s s') (hG : ∀ s s', G s s' → G' s s')
    (hQ : ∀ a s, Q a s → Q' a s) : p.Meets R' G' Q' s := by
  induction p generalizing s with
  | ret a => exact fun s' hs => hQ a s' (h s' (ReflTransGen.mono hR _ _ hs))
  | call act next ih =>
    intro s' hs
    obtain ⟨hcall, hnext⟩ := h s' (ReflTransGen.mono hR _ _ hs)
    exact ⟨hG _ _ hcall, ih _ hnext⟩

/-- **What nobody touches** is there at the end as it was at the beginning. -/
theorem frame (h : p.Meets R G Q s) (hR : Stable R J) (hG : Stable G J) (hJ : J s) :
    p.Meets R G (fun a s => Q a s ∧ J s) s := by
  induction p generalizing s with
  | ret a => exact fun s' hs => ⟨h s' hs, hR.many hJ hs⟩
  | call act next ih =>
    intro s' hs
    obtain ⟨hcall, hnext⟩ := h s' hs
    -- the others keep `J` up to the call, and the call keeps it
    exact ⟨hcall, ih _ hnext (hG _ _ (hR.many hJ hs) hcall)⟩

/-- **The program alone** returns what it is to return. -/
theorem run (h : p.Meets R G Q s) : Q (p.run s).1 (p.run s).2 := by
  induction p generalizing s with
  | ret a => exact h s .refl
  | call act next ih => exact ih _ (h s .refl).2

end Meets

end Script

/-! ### A pool of programs -/

/-- A state, and what is left to do of each program. -/
structure Pool (ι σ α : Type) : Type 1 where
  state : σ
  thread : ι → Script σ α

namespace Pool

variable {ι σ α : Type} [DecidableEq ι]

/-- The next call of one of the programs. -/
inductive Step : Pool ι σ α → Pool ι σ α → Prop
  | call {w : Pool ι σ α} (i : ι) {β : Type} {act : σ → β × σ} {next : β → Script σ α}
      (h : w.thread i = .call act next) :
      Step w ⟨(act w.state).2, update w.thread i (next (act w.state).1)⟩

/-- The pools that any order of the calls can lead to. -/
def Reach : Pool ι σ α → Pool ι σ α → Prop := ReflTransGen Step

variable {w w' : Pool ι σ α} {R G : ι → σ → σ → Prop} {Q : ι → α → σ → Prop}

/-- One call. -/
theorem meets_of_step (hrely : ∀ i j, i ≠ j → ∀ s s', G i s s' → R j s s')
    (h : ∀ i, (w.thread i).Meets (R i) (G i) (Q i) w.state) (hstep : Step w w') (i : ι) :
    (w'.thread i).Meets (R i) (G i) (Q i) w'.state := by
  obtain ⟨j, hj⟩ := hstep
  have hcall := h j
  rw [hj] at hcall
  obtain ⟨hG, hnext⟩ := hcall w.state .refl
  by_cases hij : i = j
  · subst hij
    simpa using hnext
  · -- to any other program this is something that it allows
    simpa [update_of_ne hij] using (h i).rely (hrely j i (Ne.symm hij) _ _ hG)

/-- **The programs of a pool.** If each program only does what every other one allows, each
keeps its promise in every order of the calls. -/
theorem meets_of_reach (hrely : ∀ i j, i ≠ j → ∀ s s', G i s s' → R j s s')
    (h : ∀ i, (w.thread i).Meets (R i) (G i) (Q i) w.state) (hreach : Reach w w') :
    ∀ i, (w'.thread i).Meets (R i) (G i) (Q i) w'.state := by
  induction hreach with
  | refl => exact h
  | tail _ hstep ih => exact meets_of_step hrely ih hstep

/-- The state has only been changed as the programs are allowed to. -/
theorem changes_of_reach (hrely : ∀ i j, i ≠ j → ∀ s s', G i s s' → R j s s')
    (h : ∀ i, (w.thread i).Meets (R i) (G i) (Q i) w.state) (hreach : Reach w w') :
    ReflTransGen (fun s s' => ∃ i, G i s s') w.state w'.state := by
  induction hreach with
  | refl => exact .refl
  | @tail v v' hvia hstep ih =>
    refine ih.tail ?_
    obtain ⟨i, hi⟩ := hstep
    -- on the way, too, the program only makes calls that it is allowed
    have hcall := meets_of_reach hrely h hvia i
    rw [hi] at hcall
    exact ⟨i, (hcall v.state .refl).1⟩

/-- What a program of the pool has returned. -/
theorem returned (hrely : ∀ i j, i ≠ j → ∀ s s', G i s s' → R j s s')
    (h : ∀ i, (w.thread i).Meets (R i) (G i) (Q i) w.state) (hreach : Reach w w') {i : ι} {a : α}
    (hdone : w'.thread i = .ret a) : Q i a w'.state := by
  have hmeets := meets_of_reach hrely h hreach i
  rw [hdone] at hmeets
  exact hmeets w'.state .refl

/-- The pool after one of its programs has been run to its end. -/
def finish (w : Pool ι σ α) (i : ι) : Pool ι σ α :=
  ⟨((w.thread i).run w.state).2, update w.thread i (.ret ((w.thread i).run w.state).1)⟩

/-- From every state of a pool a program can be run to its end. -/
theorem reach_finish (w : Pool ι σ α) (i : ι) : Reach w (w.finish i) := by
  -- its calls are made one after another, with none of the others between them
  generalize hp : w.thread i = p
  induction p generalizing w with
  | ret a =>
    have hsame : w.finish i = w := by
      rw [finish, hp, Script.run, ← hp, update_eq_self]
    rw [hsame]
    exact .refl
  | call act next ih =>
    have hrest := ih (act w.state).1
      ⟨(act w.state).2, update w.thread i (next (act w.state).1)⟩ (update_self ..)
    have hsame : finish ⟨(act w.state).2, update w.thread i (next (act w.state).1)⟩ i =
        w.finish i := by
      simp only [finish, hp, update_self, update_idem, Script.run]
    rw [hsame] at hrest
    exact .head (.call i hp) hrest

/-- So two of its programs can both come to their end. -/
theorem exists_returned {i j : ι} (hij : i ≠ j) (w : Pool ι σ α) :
    ∃ w' a b, Reach w w' ∧ w'.thread i = .ret a ∧ w'.thread j = .ret b := by
  refine ⟨(w.finish i).finish j, ((w.thread i).run w.state).1,
    (((w.finish i).thread j).run (w.finish i).state).1,
    (w.reach_finish i).trans ((w.finish i).reach_finish j), ?_, update_self ..⟩
  exact (update_of_ne hij _ _).trans (update_self ..)

end Pool

end Shared
