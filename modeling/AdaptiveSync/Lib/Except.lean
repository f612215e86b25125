import Mathlib.Tactic.Common

/-!
# Sequencing computations that may throw

How `do` blocks in `Except` run on known results, and what a block that returned, or
threw, must have gone through.
-/

namespace Except

variable {ε α β : Type}

@[simp] theorem ok_bind (a : α) (f : α → Except ε β) : (Except.ok a >>= f) = f a := rfl

@[simp] theorem error_bind (e : ε) (f : α → Except ε β) :
    ((Except.error e : Except ε α) >>= f) = Except.error e := rfl

/-- A block that returned went through both of its parts. -/
theorem bind_eq_ok_iff {x : Except ε α} {f : α → Except ε β} {b : β} :
    (x >>= f) = .ok b ↔ ∃ a, x = .ok a ∧ f a = .ok b := by
  cases x with
  | error e => simp
  | ok a => simp

/-- The computation does not throw. -/
def Returns (x : Except ε α) : Prop := ∃ a, x = .ok a

@[simp] theorem returns_ok (a : α) : (Except.ok a : Except ε α).Returns := ⟨a, rfl⟩

@[simp] theorem returns_pure (a : α) : (pure a : Except ε α).Returns := ⟨a, rfl⟩

@[simp] theorem not_returns_error (e : ε) : ¬ (Except.error e : Except ε α).Returns :=
  fun ⟨_, h⟩ => absurd h (by simp)

/-- Filtering with a test that never throws. -/
theorem filterM_eq_ok {p : α → Except ε Bool} {q : α → Bool} {l : List α}
    (h : ∀ a ∈ l, p a = .ok (q a)) : l.filterM p = .ok (l.filter q) := by
  have haux : ∀ (l acc : List α), (∀ a ∈ l, p a = .ok (q a)) →
      List.filterAuxM p l acc = .ok ((l.filter q).reverse ++ acc) := by
    intro l
    induction l with
    | nil => intro acc _; rfl
    | cons a l ih =>
      intro acc hl
      rw [List.filterAuxM, hl a List.mem_cons_self, ok_bind,
        ih _ fun x hx => hl x (List.mem_cons_of_mem a hx)]
      cases hq : q a <;> simp [hq]
  rw [List.filterM, haux l [] h, ok_bind]
  simp
  rfl

/-- A filter that returns has asked every element, first to last. -/
theorem filterM_cons_eq_ok {p : α → Except ε Bool} {a : α} {l r : List α}
    (h : (a :: l).filterM p = .ok r) :
    ∃ b rest, p a = .ok b ∧ l.filterM p = .ok rest ∧ r = if b then a :: rest else rest := by
  have haux : ∀ (l acc : List α) {r : List α}, List.filterAuxM p l acc = .ok r →
      ∀ x ∈ l, p x = .ok ((p x).toOption.getD false) := by
    intro l
    induction l with
    | nil => intro acc r _ x hx; exact absurd hx (by simp)
    | cons a l ih =>
      intro acc r h x hx
      obtain ⟨b, hb, h⟩ := bind_eq_ok_iff.mp h
      rcases List.mem_cons.mp hx with rfl | hx
      · rw [hb]
        rfl
      · exact ih _ h x hx
  obtain ⟨r', hr', -⟩ := bind_eq_ok_iff.mp h
  have hall := haux (a :: l) [] hr'
  have hl : ∀ x ∈ l, p x = .ok ((p x).toOption.getD false) :=
    fun x hx => hall x (List.mem_cons_of_mem a hx)
  refine ⟨_, _, hall a List.mem_cons_self, filterM_eq_ok hl, ?_⟩
  rw [filterM_eq_ok hall] at h
  rw [← Except.ok.inj h, List.filter_cons]

/-- Mapping with a function that never throws. -/
theorem mapM_eq_ok {f : α → Except ε β} {g : α → β} {l : List α}
    (h : ∀ a ∈ l, f a = .ok (g a)) : l.mapM f = .ok (l.map g) := by
  induction l with
  | nil => rfl
  | cons a l ih =>
    rw [List.mapM_cons, h a List.mem_cons_self, ok_bind,
      ih fun x hx => h x (List.mem_cons_of_mem a hx), ok_bind]
    rfl

/-- Filtering returns when the test does. -/
theorem returns_filterM {p : α → Except ε Bool} {l : List α} (h : ∀ a, (p a).Returns) :
    (l.filterM p).Returns := by
  choose q hq using h
  exact ⟨_, filterM_eq_ok fun a _ => hq a⟩

/-- Mapping returns exactly when it does at every element. -/
theorem returns_mapM {f : α → Except ε β} {l : List α} :
    (l.mapM f).Returns ↔ ∀ a ∈ l, (f a).Returns := by
  induction l with
  | nil => simp
  | cons a l ih =>
    rw [List.mapM_cons, List.forall_mem_cons, ← ih]
    cases hfa : f a with
    | error e => simp
    | ok b =>
      cases hl : l.mapM f with
      | error e => simp
      | ok bs => simp

/-- What a map that returned has returned: the function's results. -/
theorem mem_of_mapM_eq_ok {f : α → Except ε β} {l : List α} {rs : List β} (h : l.mapM f = .ok rs)
    {b : β} : b ∈ rs ↔ ∃ a ∈ l, f a = .ok b := by
  induction l generalizing rs with
  | nil =>
    obtain rfl := Except.ok.inj h
    simp
  | cons a l ih =>
    rw [List.mapM_cons] at h
    obtain ⟨c, hc, h⟩ := bind_eq_ok_iff.mp h
    obtain ⟨cs, hcs, h⟩ := bind_eq_ok_iff.mp h
    obtain rfl := Except.ok.inj h
    simp only [List.mem_cons, ih hcs, exists_eq_or_imp, hc, Except.ok.injEq, @eq_comm _ b]

end Except
