import AdaptiveSync.Lib.Duplex

/-!
# Which program an answer belongs to

Programs run one after another on one connection. A server sends what it likes in reaction
to an item, and a program need not read all of it, so a program may find items on its
channel that were sent in reaction to an earlier one, and take them for answers of its own.

To say so, every program of a sequence gets a number, every item sent to the server
carries the number of the program that sent it, every item the server sends in reaction
carries it back, and every event is recorded with the number of its program and of the
item received last (`Traced`). The numbers are ghosts: `exec_tagged` says that erasing them
gives the run without them.

An event is `Own` when the two numbers agree. A program records a foreign event exactly
when the items left over for it, fed to it one by one, lead it to an event
(`Proc.takes`): the channel is first in, first out, so everything left over comes before
everything of its own. Along a sequence (`own_iff_undisturbed`), all events are own exactly
when no program takes what is left over for it.
-/

namespace Duplex

open Relation

variable {S O I F E α T : Type}

/-! ### Ghosts -/

/-- An event with the program that recorded it, and the program whose item the server
reacted to when it sent what was received last. -/
structure Traced (T E : Type) where
  tag : T
  source : Option T
  event : E

/-- The program took an item that was sent in reaction to itself. -/
def Traced.Own (x : Traced T E) : Prop := x.source = some x.tag

/-- The machine in which every answer carries the tag of the item it answers. -/
def Machine.tagged (M : Machine S O I) : Machine S (T × O) (T × I) where
  step s x := ((M.step s x.2).1, (M.step s x.2).2.map fun i => (x.1, i))
  down := M.down

/-- Read an item that carries a tag. -/
def taggedView (view : I → Option F) (i : T × I) : Option (T × F) :=
  (view i.2).map fun f => (i.1, f)

/-- A program under the tag `t`, the item received last having carried `last`. -/
def Proc.tagged (t : T) : Option T → Proc O F E α → Proc (T × O) (T × F) (Traced T E) α
  | _, .ret a => .ret a
  | last, .send o k => .send (t, o) (k.tagged t last)
  | last, .emit e k => .emit ⟨t, last, e⟩ (k.tagged t last)
  | last, .recv k => .recv fun i =>
    match i with
    | none => (k none).tagged t last
    | some f => (k (some f.2)).tagged t (some f.1)

/-- The link without its ghosts. -/
def Link.erase (l : Link S (T × O) (T × I) (Traced T E)) : Link S O I E where
  toServer := l.toServer.map Prod.snd
  toClient := l.toClient.map Prod.snd
  server := l.server
  sent := l.sent.map Prod.snd
  served := l.served.map Prod.snd
  log := l.log.map Traced.event

section Ghosts

variable {M : Machine S O I} {view : I → Option F}

theorem Link.erase_deliver (l : Link S (T × O) (T × I) (Traced T E)) (t : T) (o : O) :
    (l.deliver M.tagged (t, o)).erase = l.erase.deliver M o := by
  have hsnd : ∀ is : List I, (is.map fun i => (t, i)).map Prod.snd = is := by
    intro is
    rw [List.map_map]
    exact List.map_id _
  by_cases hd : M.down l.server = true
  · simp [Link.deliver, Machine.tagged, Link.erase, hd]
  · simp [Link.deliver, Machine.tagged, Link.erase, hd, hsnd]

/-- **Ghosts decide nothing.** The run with tags, its tags erased, is the run without. -/
theorem exec_tagged (t : T) (p : Proc O F E α) :
    ∀ (last : Option T) (l : Link S (T × O) (T × I) (Traced T E)),
      ∃ q last' l', exec M.tagged (taggedView view) (p.tagged t last) l =
          ⟨Proc.tagged t last' q, l'⟩ ∧ exec M view p l.erase = ⟨q, l'.erase⟩ := by
  induction p with
  | ret a =>
    intro last l
    exact ⟨.ret a, last, l, rfl, rfl⟩
  | send o k ih =>
    intro last l
    -- the server reacts to the item as to the one without its tag
    obtain ⟨q, last', l', h₁, h₂⟩ := ih last (l.deliver M.tagged (t, o))
    refine ⟨q, last', l', h₁, ?_⟩
    rw [Link.erase_deliver] at h₂
    exact h₂
  | emit e k ih =>
    intro last l
    obtain ⟨q, last', l', h₁, h₂⟩ := ih last { l with log := l.log ++ [⟨t, last, e⟩] }
    refine ⟨q, last', l', h₁, ?_⟩
    rw [← h₂]
    simp [exec, Link.erase]
  | recv k ih =>
    intro last l
    obtain ⟨ts, tc, s, st, sv, lg⟩ := l
    -- blocked, or told that the server is gone
    have hwait : tc.head?.bind (taggedView view) = none → ∃ q last' l',
        exec M.tagged (taggedView view) ((Proc.recv k).tagged t last) ⟨ts, tc, s, st, sv, lg⟩ =
          ⟨Proc.tagged t last' q, l'⟩ ∧
        exec M view (.recv k) (Link.erase ⟨ts, tc, s, st, sv, lg⟩) = ⟨q, l'.erase⟩ := by
      intro hnone
      -- a tag does not make an item readable
      have hnone' : (tc.map Prod.snd).head?.bind view = none := by
        cases tc with
        | nil => rfl
        | cons i is => simpa [taggedView] using hnone
      by_cases hd : M.down s = true
      · obtain ⟨q, last', l', h₁, h₂⟩ := ih none last ⟨ts, tc, s, st, sv, lg⟩
        refine ⟨q, last', l', ?_, ?_⟩
        · rw [← h₁]
          simp [exec, Proc.tagged, hnone, Machine.tagged, hd]
        · rw [← h₂]
          simp only [exec, Link.erase, hnone']
          rw [if_pos hd]
      · refine ⟨.recv k, last, ⟨ts, tc, s, st, sv, lg⟩, ?_, ?_⟩
        · simp [exec, Proc.tagged, hnone, Machine.tagged, hd]
        · simp only [exec, Link.erase, hnone']
          rw [if_neg hd]
    cases tc with
    | nil => exact hwait rfl
    | cons i is =>
      cases hi : view i.2 with
      | none => exact hwait (by simp [taggedView, hi])
      | some f =>
        obtain ⟨q, last', l', h₁, h₂⟩ := ih (some f) (some i.1) ⟨ts, is, s, st, sv, lg⟩
        have hview : taggedView view i = some (i.1, f) := by simp [taggedView, hi]
        refine ⟨q, last', l', ?_, (exec_recv rfl hi).trans h₂⟩
        rw [Proc.tagged]
        exact (exec_recv rfl hview).trans h₁

end Ghosts

/-! ### Leftovers -/

/-- The items a client can read before it has to wait for more. -/
def readable (view : I → Option F) : List I → List F
  | [] => []
  | i :: is =>
    match view i with
    | none => []
    | some f => f :: readable view is

/-- Fed with the items, the program records an event before it needs another one. -/
def Proc.takes : Proc O F E α → List F → Bool
  | .ret _, _ => false
  | .send _ k, is => k.takes is
  | .emit _ _, _ => true
  | .recv _, [] => false
  | .recv k, i :: is => (k (some i)).takes is

/-- The program returns when it learns that its peer is gone. -/
def Proc.Quits : Proc O F E α → Prop
  | .ret _ => True
  | .send _ k => k.Quits
  | .emit _ k => k.Quits
  | .recv k => (∃ a, k none = .ret a) ∧ ∀ f, (k (some f)).Quits

section Bind

variable {β : Type} {f : α → Proc O F E β}

/-- What follows a program and only returns takes nothing. -/
theorem Proc.takes_bind {p : Proc O F E α} (hf : ∀ a, ∃ b, f a = .ret b) :
    ∀ is, (p.bind f).takes is = p.takes is := by
  induction p with
  | ret a =>
    intro is
    obtain ⟨b, hb⟩ := hf a
    simp [Proc.bind, hb, Proc.takes]
  | send o k ih =>
    intro is
    exact ih is
  | emit e k ih =>
    intro is
    exact rfl
  | recv k ih =>
    intro is
    cases is with
    | nil => rfl
    | cons i is => exact ih (some i) is

theorem Proc.Quits.bind {p : Proc O F E α} (hp : p.Quits) (hf : ∀ a, ∃ b, f a = .ret b) :
    (p.bind f).Quits := by
  induction p with
  | ret a =>
    obtain ⟨b, hb⟩ := hf a
    simp [Proc.bind, hb, Proc.Quits]
  | send o k ih => exact ih hp
  | emit e k ih => exact ih hp
  | recv k ih =>
    obtain ⟨⟨a, ha⟩, hk⟩ := hp
    obtain ⟨b, hb⟩ := hf a
    refine ⟨⟨b, ?_⟩, fun i => ih (some i) (hk i)⟩
    change (k none).bind f = .ret b
    rw [ha]
    exact hb

end Bind

section Leftovers

variable {M : Machine S O I} {view : I → Option F}

theorem deliver_log (l : Link S O I E) (o : O) : (l.deliver M o).log = l.log := by
  unfold Link.deliver
  split <;> rfl

/-- Events stay recorded. -/
theorem log_prefix_exec {view : I → Option F} (p : Proc O F E α) :
    ∀ l : Link S O I E, l.log <+: (exec M view p l).link.log := by
  induction p with
  | ret a =>
    intro l
    exact List.prefix_refl _
  | send o k ih =>
    intro l
    have h := ih (l.deliver M o)
    rw [deliver_log] at h
    exact h
  | emit e k ih =>
    intro l
    exact (List.prefix_append _ _).trans (ih { l with log := l.log ++ [e] })
  | recv k ih =>
    intro l
    unfold exec
    split
    · exact ih _ { l with toClient := l.toClient.tail }
    · split
      · exact ih _ _
      · exact List.prefix_refl _

/-- What a delivery under the tag `t` puts on the way to the client carries `t`. -/
theorem deliver_toClient (l : Link S (T × O) (T × I) (Traced T E)) (t : T) (o : O) :
    ∃ new, (∀ i ∈ new, i.1 = t) ∧
      (l.deliver M.tagged (t, o)).toClient = l.toClient ++ new := by
  unfold Link.deliver
  split
  · exact ⟨[], by simp, by simp⟩
  · refine ⟨(M.step l.server o).2.map fun i => (t, i), fun i hi => ?_, rfl⟩
    obtain ⟨j, -, rfl⟩ := List.mem_map.mp hi
    rfl

/-- A program that has got to items of its own records own events only. -/
theorem own_of_source_own (t : T) (p : Proc O F E α) :
    ∀ l : Link S (T × O) (T × I) (Traced T E), (∀ i ∈ l.toClient, i.1 = t) →
      (∀ x ∈ l.log, x.Own) →
      ∀ x ∈ (exec M.tagged (taggedView view) (p.tagged t (some t)) l).link.log, x.Own := by
  induction p with
  | ret a =>
    intro l _ hlog
    exact hlog
  | send o k ih =>
    intro l hl hlog
    -- what the server answers carries the tag of this program
    refine ih (l.deliver M.tagged (t, o)) ?_ (by rwa [deliver_log])
    obtain ⟨new, hnew, heq⟩ := @deliver_toClient _ _ _ _ _ M l t o
    rw [heq]
    intro i hi
    exact (List.mem_append.mp hi).elim (hl i) (hnew i)
  | emit e k ih =>
    intro l hl hlog
    refine ih { l with log := l.log ++ [⟨t, some t, e⟩] } hl fun x hx => ?_
    rcases List.mem_append.mp hx with hx | hx
    · exact hlog x hx
    · rw [List.mem_singleton.mp hx]
      rfl
  | recv k ih =>
    intro l hl hlog
    rw [Proc.tagged]
    unfold exec
    split
    · next f hf =>
      obtain ⟨i, hi, hf⟩ := Option.bind_eq_some_iff.mp hf
      obtain ⟨g, -, rfl⟩ := Option.map_eq_some_iff.mp hf
      -- the tag of the item taken becomes the source of what is recorded next
      have hmem : i ∈ l.toClient := List.mem_of_mem_head? hi
      simp only [hl i hmem]
      exact ih _ _ (fun j hj => hl j (List.mem_of_mem_tail hj)) hlog
    · split
      · exact ih _ _ hl hlog
      · exact hlog

/-- A program that does not take its leftovers records own events only. -/
theorem own_of_not_takes (t : T) (p : Proc O F E α) (hquits : p.Quits) :
    ∀ (last : Option T) (l : Link S (T × O) (T × I) (Traced T E)) (old new : List (T × I)),
      l.toClient = old ++ new → (∀ i ∈ new, i.1 = t) →
      p.takes (readable view (old.map Prod.snd)) = false → (∀ x ∈ l.log, x.Own) →
      ∀ x ∈ (exec M.tagged (taggedView view) (p.tagged t last) l).link.log, x.Own := by
  induction p with
  | ret a =>
    intro last l old new _ _ _ hlog
    exact hlog
  | send o k ih =>
    intro last l old new hl hnew htakes hlog
    obtain ⟨more, hmore, heq⟩ := @deliver_toClient _ _ _ _ _ M l t o
    -- answers queue up behind the leftovers
    refine ih hquits last (l.deliver M.tagged (t, o)) old (new ++ more) ?_ ?_ htakes
      (by rwa [deliver_log])
    · rw [heq, hl, List.append_assoc]
    · intro i hi
      exact (List.mem_append.mp hi).elim (hnew i) (hmore i)
  | emit e k ih =>
    intro last l old new _ _ htakes _
    exact absurd htakes (by simp [Proc.takes])
  | recv k ih =>
    intro last l old new hl hnew htakes hlog
    obtain ⟨⟨a, ha⟩, hquits⟩ := hquits
    rw [Proc.tagged]
    -- with nothing to read the program returns or waits
    have hwait : l.toClient.head?.bind (taggedView view) = none →
        ∀ x ∈ (exec M.tagged (taggedView view) (.recv fun i => match i with
          | none => (k none).tagged t last
          | some f => (k (some f.2)).tagged t (some f.1)) l).link.log, x.Own := by
      intro hnone
      unfold exec
      simp only [hnone, ha]
      split
      · exact hlog
      · exact hlog
    cases old with
    | nil =>
      cases new with
      | nil => exact hwait (by rw [hl]; rfl)
      | cons i is =>
        -- the first item of its own
        obtain rfl : i.1 = t := hnew i List.mem_cons_self
        cases hi : view i.2 with
        | none => exact hwait (by rw [hl]; simp [taggedView, hi])
        | some f =>
          have hview : taggedView view i = some (i.1, f) := by simp [taggedView, hi]
          rw [exec_recv hl hview]
          exact own_of_source_own i.1 (k (some f)) _
            (fun j hj => hnew j (List.mem_cons_of_mem i hj)) hlog
    | cons i is =>
      cases hi : view i.2 with
      | none => exact hwait (by rw [hl]; simp [taggedView, hi])
      | some f =>
        have hview : taggedView view i = some (i.1, f) := by simp [taggedView, hi]
        rw [exec_recv (by rw [hl]; rfl) hview]
        refine ih (some f) (hquits f) (some i.1) _ is new rfl hnew ?_ hlog
        simpa [readable, hi, Proc.takes] using htakes

/-- A program that takes its leftovers records a foreign event. -/
theorem not_own_of_takes (t : T) (p : Proc O F E α) :
    ∀ (last : Option T) (l : Link S (T × O) (T × I) (Traced T E)) (old new : List (T × I)),
      l.toClient = old ++ new → (∀ i ∈ old, i.1 ≠ t) → last ≠ some t →
      p.takes (readable view (old.map Prod.snd)) = true →
      ∃ x ∈ (exec M.tagged (taggedView view) (p.tagged t last) l).link.log, ¬ x.Own := by
  induction p with
  | ret a =>
    intro last l old new _ _ _ htakes
    exact absurd htakes (by simp [Proc.takes])
  | send o k ih =>
    intro last l old new hl hold hlast htakes
    obtain ⟨more, -, heq⟩ := @deliver_toClient _ _ _ _ _ M l t o
    refine ih last (l.deliver M.tagged (t, o)) old (new ++ more) ?_ hold hlast htakes
    rw [heq, hl, List.append_assoc]
  | emit e k ih =>
    intro last l old new _ _ hlast _
    -- the event is recorded on a leftover, and stays recorded
    refine ⟨⟨t, last, e⟩, ?_, hlast⟩
    refine (log_prefix_exec (k.tagged t last) { l with log := l.log ++ [⟨t, last, e⟩] }).subset ?_
    exact List.mem_append_right _ (List.mem_singleton_self _)
  | recv k ih =>
    intro last l old new hl hold hlast htakes
    rw [Proc.tagged]
    cases old with
    | nil => exact absurd htakes (by simp [Proc.takes, readable])
    | cons i is =>
      cases hi : view i.2 with
      | none => exact absurd htakes (by simp [Proc.takes, readable, hi])
      | some f =>
        have hview : taggedView view i = some (i.1, f) := by simp [taggedView, hi]
        rw [exec_recv (by rw [hl]; rfl) hview]
        refine ih (some f) (some i.1) _ is new rfl
          (fun j hj => hold j (List.mem_cons_of_mem i hj)) ?_ ?_
        · intro hc
          exact hold i List.mem_cons_self (Option.some.inj hc)
        · simpa [readable, hi, Proc.takes] using htakes

/-- What a program leaves behind was there before it, or carries its tag. -/
theorem mem_toClient_exec (t : T) (p : Proc O F E α) :
    ∀ (last : Option T) (l : Link S (T × O) (T × I) (Traced T E)),
      ∀ i ∈ (exec M.tagged (taggedView view) (p.tagged t last) l).link.toClient,
        i ∈ l.toClient ∨ i.1 = t := by
  induction p with
  | ret a =>
    intro last l i hi
    exact Or.inl hi
  | send o k ih =>
    intro last l i hi
    refine (ih last (l.deliver M.tagged (t, o)) i hi).elim (fun hmem => ?_) Or.inr
    obtain ⟨new, hnew, heq⟩ := @deliver_toClient _ _ _ _ _ M l t o
    rw [heq] at hmem
    exact (List.mem_append.mp hmem).imp_right (hnew i)
  | emit e k ih =>
    intro last l i hi
    exact ih last { l with log := l.log ++ [⟨t, last, e⟩] } i hi
  | recv k ih =>
    intro last l i hi
    rw [Proc.tagged] at hi
    unfold exec at hi
    split at hi
    · next f hf =>
      exact (ih (some f.2) (some f.1) { l with toClient := l.toClient.tail } i hi).imp_left
        List.mem_of_mem_tail
    · split at hi
      · exact ih none last l i hi
      · exact Or.inl hi

end Leftovers

/-! ### Sequences of programs -/

/-- Run programs one after another, each under its own number. -/
def runAll : ℕ → List (Proc O F E Unit) → Proc (ℕ × O) (ℕ × F) (Traced ℕ E) Unit
  | _, [] => .ret ()
  | t, p :: ps => (p.tagged t none).bind fun _ => runAll (t + 1) ps

/-- No program of the sequence takes what is left over when it starts. -/
def Undisturbed (M : Machine S O I) (view : I → Option F) :
    List (Proc O F E Unit) → Link S O I E → Prop
  | [], _ => True
  | p :: ps, l => p.takes (readable view l.toClient) = false ∧
      ∀ l', exec M view p l = ⟨.ret (), l'⟩ → Undisturbed M view ps l'

section Sequences

variable {M : Machine S O I} {view : I → Option F}

/-- Along the eager schedule all events are own exactly when no program is disturbed. The
induction is on the programs: what one of them leaves behind carries smaller numbers than
the next one's. -/
theorem own_exec_iff (ps : List (Proc O F E Unit)) (hquits : ∀ p ∈ ps, p.Quits) :
    ∀ (t : ℕ) (l : Link S (ℕ × O) (ℕ × I) (Traced ℕ E)), (∀ i ∈ l.toClient, i.1 < t) →
      (∀ x ∈ l.log, x.Own) →
      ((∀ x ∈ (exec M.tagged (taggedView view) (runAll t ps) l).link.log, x.Own) ↔
        Undisturbed M view ps l.erase) := by
  induction ps with
  | nil =>
    intro t l _ hlog
    exact ⟨fun _ => trivial, fun _ => hlog⟩
  | cons p ps ih =>
    intro t l hl hlog
    have htoClient : l.erase.toClient = l.toClient.map Prod.snd := rfl
    obtain ⟨q, last, l', hexec, herase⟩ := @exec_tagged S O I F E Unit ℕ M view t p none l
    -- the next program's number is above everything on its channel
    have htags : ∀ i ∈ l'.toClient, i.1 < t + 1 := by
      intro i hi
      have hmem := @mem_toClient_exec S O I F E Unit ℕ M view t p none l i (by rwa [hexec])
      exact hmem.elim (fun h => Nat.lt_succ_of_lt (hl i h)) fun h => h ▸ Nat.lt_succ_self t
    have hgrows : l'.log <+:
        (exec M.tagged (taggedView view) (runAll t (p :: ps)) l).link.log := by
      rw [runAll, exec_bind, hexec]
      cases q with
      | ret a => exact log_prefix_exec _ _
      | send o k => exact List.prefix_refl _
      | emit e k => exact List.prefix_refl _
      | recv k =>
        simp only [Proc.tagged]
        exact List.prefix_refl _
    rw [Undisturbed, htoClient]
    cases htakes : p.takes (readable view (l.toClient.map Prod.snd)) with
    | true =>
      -- the foreign event stays recorded
      obtain ⟨x, hx, hforeign⟩ := @not_own_of_takes S O I F E Unit ℕ M view t p none l l.toClient []
        (List.append_nil _).symm (fun i hi => (hl i hi).ne) (by simp) htakes
      rw [hexec] at hx
      exact ⟨fun h => absurd (h x (hgrows.subset hx)) hforeign, fun h => absurd h.1 (by simp)⟩
    | false =>
      have hown :=
        @own_of_not_takes S O I F E Unit ℕ M view t p (hquits p List.mem_cons_self) none l
        l.toClient [] (List.append_nil _).symm (by simp) htakes hlog
      rw [hexec] at hown
      rw [runAll, exec_bind, hexec, herase]
      cases q with
      | ret a =>
        -- the program returns, and the rest runs on the link it leaves
        have hnext := ih (fun x hx => hquits x (List.mem_cons_of_mem p hx)) (t + 1) l' htags hown
        refine hnext.trans ⟨fun h => ⟨rfl, ?_⟩, fun h => h.2 _ rfl⟩
        rintro l'' heq
        rw [← (Config.mk.inj heq).2]
        exact h
      -- a program that has not returned is followed by nothing
      | send o k => exact ⟨fun _ => ⟨rfl, by simp⟩, fun _ => hown⟩
      | emit e k => exact ⟨fun _ => ⟨rfl, by simp⟩, fun _ => hown⟩
      | recv k =>
        simp only [Proc.tagged]
        exact ⟨fun _ => ⟨trivial, by simp⟩, fun _ => hown⟩

/-- **Every answer belongs to its question**, in every interleaving, exactly when no program
is disturbed by leftovers. -/
theorem own_iff_undisturbed {ps : List (Proc O F E Unit)} (hquits : ∀ p ∈ ps, p.Quits) (s : S) :
    (∀ c, Reach M.tagged (taggedView view) ⟨runAll 0 ps, Link.start s⟩ c →
        ∀ x ∈ c.link.log, x.Own) ↔
      Undisturbed M view ps (Link.start s) := by
  have hexec := @own_exec_iff S O I F E M view ps hquits 0 (Link.start s) (by simp [Link.start])
    (by simp [Link.start])
  -- every run extends to the eager one, whose record extends its own
  refine Iff.trans ⟨fun h => h _ (exec_reach _ (Or.inl rfl)), fun h c hc x hx => ?_⟩ hexec
  exact h x ((reach_exec (Or.inl rfl) hc).histories.2.2.subset hx)

end Sequences

end Duplex
