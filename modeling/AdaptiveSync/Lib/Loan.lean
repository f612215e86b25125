import Mathlib.Data.List.Induction
import Mathlib.Data.Multiset.Filter
import Mathlib.Data.Multiset.ZeroCons

/-!
# A value that is lent from a slot

An owner puts values into a slot and clears it. Borrowers take the value out of the slot,
work with it, and put it back; whatever is in the slot then is overwritten. Any number of
borrowers may be at work, in any order.

While a value is lent, an empty slot does not mean that the owner has cleared it. If the
owner leaves the slot alone then, it holds what the owner has put there whenever nothing is
lent (`slot_eq_owner`).

Systems that use such a slot have other steps too. `Run.filterMap` maps their runs to runs
of the slot.
-/

namespace Loan

/-! ### Labelled runs -/

/-- The events of a run, first to last, and where it leads. -/
inductive Run {σ ε : Type} (R : σ → ε → σ → Prop) (s : σ) : List ε → σ → Prop
  | nil : Run R s [] s
  | snoc {es : List ε} {s' s'' : σ} {e : ε} : Run R s es s' → R s' e s'' → Run R s (es ++ [e]) s''

section Run

variable {σ ε : Type} {R R' : σ → ε → σ → Prop} {s s' s'' : σ} {es es' : List ε} {e : ε}

theorem Run.single (h : R s e s') : Run R s [e] s' := Run.snoc .nil h

theorem Run.append (h : Run R s es s') (h' : Run R s' es' s'') : Run R s (es ++ es') s'' := by
  induction h' with
  | nil => simpa using h
  | snoc _ hstep ih =>
    rw [← List.append_assoc]
    exact ih.snoc hstep

/-- A run is a run of any system that has its steps. -/
theorem Run.mono (h : Run R s es s') (hR : ∀ {s e s'}, R s e s' → R' s e s') : Run R' s es s' := by
  induction h with
  | nil => exact .nil
  | snoc _ hstep ih => exact ih.snoc (hR hstep)

/-- A run of one system is a run of another, when each step is one of its steps, or none. -/
theorem Run.filterMap {τ δ : Type} {Q : τ → δ → τ → Prop} {f : σ → τ} {g : ε → Option δ}
    (h : Run R s es s')
    (hstep : ∀ {s e s'}, R s e s' → match g e with
      | some d => Q (f s) d (f s')
      | none => f s' = f s) :
    Run Q (f s) (es.filterMap g) (f s') := by
  induction h with
  | nil => exact .nil
  | @snoc es s' s'' e _ hlast ih =>
    have hmap := hstep hlast
    rw [List.filterMap_append]
    cases hg : g e with
    | none =>
      rw [hg] at hmap
      simpa [hg, hmap] using ih
    | some d =>
      rw [hg] at hmap
      simpa [hg] using ih.snoc hmap

end Run

/-! ### The slot -/

variable {α : Type}

/-- The slot, and what has been taken out of it and not been put back. -/
structure Desk (α : Type) where
  slot : Option α
  lent : Multiset α

/-- What happens to the slot. -/
inductive Event (α : Type) where
  /-- The owner puts a value there. -/
  | put (a : α)
  /-- The owner clears it. -/
  | clear
  /-- A borrower takes the value out. -/
  | lend (a : α)
  /-- A borrower puts a value back. -/
  | giveBack (a : α)

inductive Step : Desk α → Event α → Desk α → Prop
  | put {s : Option α} {l : Multiset α} (a : α) : Step ⟨s, l⟩ (.put a) ⟨some a, l⟩
  | clear {s : Option α} {l : Multiset α} : Step ⟨s, l⟩ .clear ⟨none, l⟩
  | lend {a : α} {l : Multiset α} : Step ⟨some a, l⟩ (.lend a) ⟨none, a ::ₘ l⟩
  | giveBack {s : Option α} {a : α} {l : Multiset α} : Step ⟨s, a ::ₘ l⟩ (.giveBack a) ⟨some a, l⟩

/-- All values that are around, in the slot or in the hands of borrowers. -/
def Desk.all (d : Desk α) : Multiset α := d.slot.elim 0 ({·}) + d.lent

/-- A value is at one place only, if each that is put into the slot is a new one. -/
theorem Step.nodup {d d' : Desk α} {e : Event α} (h : Step d e d') (hnodup : d.all.Nodup)
    (hnew : ∀ a, e = .put a → a ∉ d.lent) : d'.all.Nodup := by
  have hlent : d.lent.Nodup := Multiset.nodup_of_le (Multiset.le_add_left _ _) hnodup
  cases h with
  | put a => exact Multiset.nodup_cons.mpr ⟨hnew a rfl, hlent⟩
  | clear => simpa [Desk.all] using hlent
  | lend => simpa [Desk.all] using hnodup
  | giveBack => simpa [Desk.all] using hlent

/-- What the owner wants in the slot after an event. -/
def Event.owner (wanted : Option α) : Event α → Option α
  | .put a => some a
  | .clear => none
  | .lend _ => wanted
  | .giveBack _ => wanted

/-- What the owner has last put into the slot and not cleared since. -/
def owner (es : List (Event α)) : Option α := es.foldl Event.owner none

theorem owner_append_singleton (es : List (Event α)) (e : Event α) :
    owner (es ++ [e]) = e.owner (owner es) := by
  rw [owner, List.foldl_append]
  rfl

/-- As long as the owner puts nothing into the slot, it wants nothing there that it did not
want before. -/
theorem owner_append_ne {es es' : List (Event α)} {a : α} (h : owner es ≠ some a)
    (hput : ∀ b, .put b ∉ es') : owner (es ++ es') ≠ some a := by
  rw [owner, List.foldl_append, ← owner]
  induction es' using List.reverseRecOn with
  | nil => exact h
  | append_singleton es' e ih =>
    have hrest := ih fun b hb => hput b (List.mem_append_left _ hb)
    rw [List.foldl_append]
    cases e with
    | put b => exact absurd (List.mem_append_right _ List.mem_cons_self) (hput b)
    | clear => exact nofun
    | lend b => exact hrest
    | giveBack b => exact hrest

/-- The owner touches the slot only when nothing is lent. -/
def Undisturbed (d : Desk α) : Event α → Prop
  | .put _ => d.lent = 0
  | .clear => d.lent = 0
  | .lend _ => True
  | .giveBack _ => True

/-- Nothing is lent and the slot holds what the owner wants there, or this is lent. -/
inductive Inv (d : Desk α) (wanted : Option α) : Prop
  | here (hlent : d.lent = 0) (hslot : d.slot = wanted)
  | lent (a : α) (hlent : d.lent = {a}) (hslot : d.slot = none) (hwanted : wanted = some a)

section Inv

variable {d d' : Desk α} {e : Event α} {wanted : Option α} {es : List (Event α)}

theorem Inv.step (h : Inv d wanted) (hstep : Step d e d') (hundisturbed : Undisturbed d e) :
    Inv d' (e.owner wanted) := by
  cases hstep with
  | put a => exact .here hundisturbed rfl
  | clear => exact .here hundisturbed rfl
  | lend =>
    cases h with
    | here hlent hslot =>
      obtain rfl : _ = 0 := hlent
      exact .lent _ rfl rfl hslot.symm
    | lent a hlent hslot hwanted => exact absurd hslot (by simp)
  | giveBack =>
    cases h with
    | here hlent hslot => exact absurd hlent Multiset.cons_ne_zero
    | lent a hlent hslot hwanted =>
      -- it is the one value that is lent
      obtain ⟨rfl, hl⟩ := (Multiset.singleton_eq_cons_iff _).mp hlent.symm
      exact .here hl hwanted.symm

theorem Inv.run (h : Run (fun d e d' => Step d e d' ∧ Undisturbed d e) ⟨none, 0⟩ es d) :
    Inv d (owner es) := by
  induction h with
  | nil => exact .here rfl rfl
  | snoc _ hstep ih =>
    rw [owner_append_singleton]
    exact ih.step hstep.1 hstep.2

/-- **An undisturbed slot.** Whenever nothing is lent, it holds what the owner put there. -/
theorem slot_eq_owner (h : Run (fun d e d' => Step d e d' ∧ Undisturbed d e) ⟨none, 0⟩ es d)
    (hlent : d.lent = 0) : d.slot = owner es := by
  cases Inv.run h with
  | here _ hslot => exact hslot
  | lent a hlent' _ _ =>
    rw [hlent] at hlent'
    exact absurd hlent'.symm (Multiset.singleton_ne_zero a)

end Inv

end Loan
