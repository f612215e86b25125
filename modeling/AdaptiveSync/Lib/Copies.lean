import Mathlib.Data.List.Basic
import Mathlib.Logic.Function.Basic
import Mathlib.Logic.Relation

/-!
# Copies one after another

Places hold a content or nothing. A plan has a place for each item that it is read from and one
that it is copied to. Not every item need be one that can be copied, and several may be read
from one place or copied to one. What is copied to the place it is read from is cut to the
empty content first, and that is what stays.

The copy of one item may land where another is read (`Lands`) or copied to, and then the order
decides what is copied. `Spared` is the condition under which it does not matter: what comes to
a source or to a destination, by copies of copies (`Leads`), is the same as what belongs there.
The invariant of a run is that every source has what it had, and that what is at a source comes
from one that leads to it (`Invariant`), so a run spares the sources and each item arrives
(`Runs.arrives`). What a run that harms nothing says about the plan is `Harmless`: the same for
single copies.
-/

namespace Copies

open Function Relation

variable {ι P C : Type}

/-- Where items are read from and copied to, and the content of what was cut. -/
structure Plan (ι P C : Type) where
  src : ι → P
  dst : ι → P
  /-- The items that can be copied. -/
  able : ι → Prop
  empty : C

variable {p : Plan ι P C} {F F' F'' F₀ : P → Option C} {is js : List ι} {i j k o : ι} {c d : C}

namespace Plan

/-- The copy of the first item lands where the second is read. -/
def Lands (p : Plan ι P C) (i j : ι) : Prop := p.able i ∧ p.dst i = p.src j

/-- What is read at the first item comes to where the second is read, by copies of copies. -/
abbrev Leads (p : Plan ι P C) : ι → ι → Prop := ReflTransGen p.Lands

/-- Copies of copies come to places that have the same already, and what is copied to itself is
empty anyway. -/
structure Spared (p : Plan ι P C) (F : P → Option C) : Prop where
  self : ∀ {o i c}, p.Leads o i → p.able i → p.src i = p.dst i → F (p.src o) = some c → c = p.empty
  source : ∀ {o i j c d}, p.Leads o i → p.Lands i j → p.able j →
    F (p.src o) = some c → F (p.src j) = some d → c = d
  copy : ∀ {o i j c d}, p.Leads o i → p.able i → p.able j → p.dst i = p.dst j →
    F (p.src o) = some c → F (p.src j) = some d → c = d

/-- Copies come to places that have the same already. What is copied to itself is empty, or a
copy of another comes there. -/
structure Harmless (p : Plan ι P C) (F : P → Option C) : Prop where
  self : ∀ {i c}, p.able i → p.src i = p.dst i → F (p.src i) = some c →
    c = p.empty ∨ ∃ k, p.able k ∧ p.dst k = p.dst i ∧ p.src k ≠ p.dst k
  source : ∀ {i j c d}, p.Lands i j → p.able j →
    F (p.src i) = some c → F (p.src j) = some d → c = d
  copy : ∀ {i j c d}, p.able i → p.able j → p.dst i = p.dst j →
    F (p.src i) = some c → F (p.src j) = some d → c = d

/-- Copies that come to places of their own, where nothing is read, spare everything. -/
theorem spared_of_apart (hsrc : ∀ i j, p.able i → p.able j → p.dst i ≠ p.src j)
    (hdst : ∀ i j, p.able i → p.able j → p.dst i = p.dst j → p.src i = p.src j)
    (F : P → Option C) : p.Spared F := by
  -- nothing lands on what can be copied, so an item leads to itself alone
  have hleads : ∀ {o i}, p.Leads o i → p.able i → o = i := by
    intro o i hlead hi
    obtain rfl | ⟨k, -, hland⟩ := ReflTransGen.cases_tail hlead
    · rfl
    · exact absurd hland.2 (hsrc k i hland.1 hi)
  refine ⟨fun hlead hi hself _ => ?_, fun _ hland hj _ _ => ?_, fun hlead hi hj heq hc hd => ?_⟩
  · exact absurd hself.symm (hsrc _ _ hi hi)
  · exact absurd hland.2 (hsrc _ _ hland.1 hj)
  · rw [hleads hlead hi, hdst _ _ hi hj heq] at hc
    exact Option.some.inj (hc.symm.trans hd)

variable [DecidableEq P]

/-- What is at the destination of an item after its copy. -/
def result (p : Plan ι P C) (i : ι) (c : C) : C := if p.src i = p.dst i then p.empty else c

/-- The items of the list were copied, first to last: each was there when its turn came. -/
inductive Runs (p : Plan ι P C) : (P → Option C) → List ι → (P → Option C) → Prop
  | nil (F : P → Option C) : Runs p F [] F
  | cons {F F' : P → Option C} {i : ι} {is : List ι} {c : C} (hable : p.able i)
      (h : F (p.src i) = some c)
      (hrest : Runs p (update F (p.dst i) (some (p.result i c))) is F') : Runs p F (i :: is) F'

/-- Every source has what it had in the beginning, and what is at a source comes from one that
leads to it. -/
structure Invariant (p : Plan ι P C) (F₀ F : P → Option C) : Prop where
  kept : ∀ {j d}, p.able j → F₀ (p.src j) = some d → F (p.src j) = some d
  origin : ∀ {j c}, F (p.src j) = some c → ∃ o, p.Leads o j ∧ F₀ (p.src o) = some c

end Plan

variable [DecidableEq P]

namespace Plan.Runs

theorem append (h : p.Runs F is F') (h' : p.Runs F' js F'') : p.Runs F (is ++ js) F'' := by
  induction h with
  | nil => exact h'
  | cons hable h _ ih => exact .cons hable h (ih h')

theorem able_of_mem (h : p.Runs F is F') (hi : i ∈ is) : p.able i := by
  induction h with
  | nil => exact absurd hi (by simp)
  | cons hable _ _ ih =>
    obtain rfl | hi := List.mem_cons.mp hi
    · exact hable
    · exact ih hi

/-- What holds something goes on to. -/
theorem ne_none (h : p.Runs F is F') {x : P} (hx : F x ≠ none) : F' x ≠ none := by
  induction h with
  | nil => exact hx
  | @cons F F' i is c _ _ _ ih =>
    apply ih
    by_cases heq : x = p.dst i
    · rw [heq, update_self]
      simp
    · rwa [update_of_ne heq]

/-- What is no destination is left alone. -/
theorem outside (h : p.Runs F is F') {x : P} (hx : ∀ i, p.able i → x ≠ p.dst i) :
    F' x = F x := by
  induction h with
  | nil => rfl
  | cons hable _ _ ih => rw [ih, update_of_ne (hx _ hable)]

/-- What is cut stays so, or a copy of another comes there. -/
theorem empty_or_covered (h : p.Runs F is F') {x : P} (hx : F x = some p.empty) :
    F' x = some p.empty ∨ ∃ k ∈ is, p.dst k = x ∧ p.src k ≠ p.dst k := by
  induction h with
  | nil => exact .inl hx
  | @cons F F' k is c _ _ _ ih =>
    by_cases hk : p.dst k = x ∧ p.src k ≠ p.dst k
    · exact .inr ⟨k, List.mem_cons_self, hk⟩
    · obtain hF | ⟨j, hj, hland⟩ := ih (by
        by_cases heq : x = p.dst k
        · have hself : p.src k = p.dst k := by
            by_contra hne
            exact hk ⟨heq.symm, hne⟩
          rw [heq, update_self, result, if_pos hself]
        · rwa [update_of_ne heq])
      · exact .inl hF
      · exact .inr ⟨j, List.mem_cons_of_mem k hj, hland⟩

/-- What is copied to itself is empty afterwards, or a copy of another has come there. -/
theorem empty_of_self (h : p.Runs F is F') (hi : i ∈ is) (hself : p.src i = p.dst i) :
    F' (p.dst i) = some p.empty ∨ ∃ k ∈ is, p.dst k = p.dst i ∧ p.src k ≠ p.dst k := by
  induction h with
  | nil => exact absurd hi (by simp)
  | @cons F F' k is c _ _ hrest ih =>
    obtain rfl | hi := List.mem_cons.mp hi
    · obtain hF | ⟨j, hj, hland⟩ := hrest.empty_or_covered (x := p.dst i) (by
        rw [update_self, result, if_pos hself])
      · exact .inl hF
      · exact .inr ⟨j, List.mem_cons_of_mem i hj, hland⟩
    · obtain hF | ⟨j, hj, hland⟩ := ih hi
      · exact .inl hF
      · exact .inr ⟨j, List.mem_cons_of_mem k hj, hland⟩

end Plan.Runs

/-! ### Runs that damage nothing -/

namespace Plan.Invariant

omit [DecidableEq P] in
theorem refl (p : Plan ι P C) (F : P → Option C) : p.Invariant F F :=
  ⟨fun _ h => h, fun {j _} h => ⟨j, .refl, h⟩⟩

/-- A copy leaves what it has read. -/
theorem result_eq (h : p.Invariant F₀ F) (hF : p.Spared F₀) (hable : p.able i)
    (hc : F (p.src i) = some c) : p.result i c = c := by
  unfold result
  split
  · next hself =>
    obtain ⟨o, hlead, ho⟩ := h.origin hc
    exact (hF.self hlead hable hself ho).symm
  · rfl

theorem step (h : p.Invariant F₀ F) (hF : p.Spared F₀) (hable : p.able i)
    (hc : F (p.src i) = some c) : p.Invariant F₀ (update F (p.dst i) (some (p.result i c))) := by
  -- what is copied comes from a source that leads here
  obtain ⟨o, hlead, ho⟩ := h.origin hc
  rw [h.result_eq hF hable hc]
  constructor
  · intro j d hj hd
    by_cases hland : p.src j = p.dst i
    · -- what lands here is what was here
      rw [hland, update_self, hF.source hlead ⟨hable, hland.symm⟩ hj ho hd]
    · rw [update_of_ne hland]
      exact h.kept hj hd
  · intro j d hd
    by_cases hland : p.src j = p.dst i
    · rw [hland, update_self] at hd
      exact ⟨o, hlead.tail ⟨hable, hland.symm⟩, ho.trans hd⟩
    · rw [update_of_ne hland] at hd
      exact h.origin hd

end Plan.Invariant

namespace Plan.Runs

theorem invariant (h : p.Runs F is F') (hF : p.Spared F₀) (hinv : p.Invariant F₀ F) :
    p.Invariant F₀ F' := by
  induction h with
  | nil => exact hinv
  | cons hable hc _ ih => exact ih (hinv.step hF hable hc)

/-- What has arrived stays. -/
theorem dst_of_dst (h : p.Runs F is F') (hF : p.Spared F₀) (hinv : p.Invariant F₀ F)
    (hi : p.able i) (hc : F₀ (p.src i) = some c) (hdst : F (p.dst i) = some c) :
    F' (p.dst i) = some c := by
  induction h with
  | nil => exact hdst
  | @cons F F' k is d hable hd _ ih =>
    refine ih (hinv.step hF hable hd) ?_
    by_cases heq : p.dst i = p.dst k
    · -- what another copy brings here is the same
      obtain ⟨o, hlead, ho⟩ := hinv.origin hd
      rw [heq, update_self, hinv.result_eq hF hable hd, hF.copy hlead hable hi heq.symm ho hc]
    · rwa [update_of_ne heq]

/-- **Each item of a run that is spared arrives.** -/
theorem arrives (h : p.Runs F is F') (hF : p.Spared F₀) (hinv : p.Invariant F₀ F)
    (hi : i ∈ is) (hc : F₀ (p.src i) = some c) : F' (p.dst i) = some c := by
  induction h with
  | nil => exact absurd hi (by simp)
  | @cons F F' k is d hable hd hrest ih =>
    obtain rfl | hi := List.mem_cons.mp hi
    · refine hrest.dst_of_dst hF (hinv.step hF hable hd) hable hc ?_
      -- the source still has what it had in the beginning
      have hsame : d = c := Option.some.inj (hd.symm.trans (hinv.kept hable hc))
      rw [update_self, hinv.result_eq hF hable hd, hsame]
    · exact ih (hinv.step hF hable hd) hi

end Plan.Runs

end Copies
