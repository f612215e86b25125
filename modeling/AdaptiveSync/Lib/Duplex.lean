import Mathlib.Logic.Relation
import Mathlib.Data.List.Infix

/-!
# A sequential client against a reactive server, over two FIFO channels

The client is a program `Proc`: it sends, it waits for what comes next from the
server, it records an event, it returns. The server is a `Machine`: it reacts to one
incoming item at a time with a new state and a list of items sent back. Between
them lie two FIFO channels, and a run interleaves the two parties freely
(`Step`).

A server state may be `down`: it then takes no more steps, and a client waiting on
an exhausted channel learns that its peer is gone (`recv` is handed `none`). A
client that waits on an exhausted channel of a live server is blocked.

Both parties are deterministic, and each channel has one writer and one reader, so
the order in which they take turns does not matter:

* `Step.diamond`: two different steps from one configuration commute;
* `exec`: the schedule in which the server answers at once, a total function, since
  a program is a well-founded tree;
* `reach_exec`: **every** run extends to the configuration `exec` ends in.

A property of all interleavings is therefore a property of `exec`: what a run can
end in (`eq_exec_of_terminal`), whether it can get stuck, and, the histories `sent`,
`served` and `log` growing along a run (`Reach.histories`), what happened on the way.

What a step can do is said once, in `Move`; what every step keeps is proved through its
cases.
-/

namespace Duplex

open Relation

/-- A sequential program that sends items `O`, receives items `F`, records events
`E` and returns an `α`. -/
inductive Proc (O F E α : Type) where
  /-- Finished. -/
  | ret (a : α)
  /-- Put one item on the outgoing channel. -/
  | send (o : O) (k : Proc O F E α)
  /-- Wait for the next item; `none` when the peer is gone. -/
  | recv (k : Option F → Proc O F E α)
  /-- Record an event. -/
  | emit (e : E) (k : Proc O F E α)

/-- A reactive server: what it does with one incoming item, and whether it has
gone down. -/
structure Machine (S O I : Type) where
  /-- React to one item. -/
  step : S → O → S × List I
  /-- The server takes no more steps. -/
  down : S → Bool

/-- The state of the two channels and of the server, with the histories of a run. -/
structure Link (S O I E : Type) where
  /-- Sent by the client and not yet taken by the server. -/
  toServer : List O
  /-- Sent by the server and not yet taken by the client. -/
  toClient : List I
  /-- The server's state. -/
  server : S
  /-- Everything the client has sent. -/
  sent : List O
  /-- Everything the server has sent. -/
  served : List I
  /-- Every event the client has recorded. -/
  log : List E

/-- A configuration: what is left of the client's program, and the link. -/
structure Config (S O I F E α : Type) where
  client : Proc O F E α
  link : Link S O I E

variable {S O I F E α β : Type}

/-! ### The step relation -/

section Steps

variable (M : Machine S O I) (view : I → Option F)

/-- One step of the client. The head of the incoming channel is read through
`view`; an item that is not a readable whole is waited for. -/
def clientStep : Config S O I F E α → Option (Config S O I F E α)
  | ⟨.ret _, _⟩ => none
  | ⟨.send o k, l⟩ => some ⟨k, { l with toServer := l.toServer ++ [o], sent := l.sent ++ [o] }⟩
  | ⟨.emit e k, l⟩ => some ⟨k, { l with log := l.log ++ [e] }⟩
  | ⟨.recv k, l⟩ =>
    match l.toClient.head?.bind view with
    | some f => some ⟨k (some f), { l with toClient := l.toClient.tail }⟩
    | none => if M.down l.server then some ⟨k none, l⟩ else none

/-- One step of the server: take the next item and answer it. -/
def serverStep : Config S O I F E α → Option (Config S O I F E α)
  | ⟨p, l⟩ =>
    match l.toServer with
    | [] => none
    | o :: os =>
      if M.down l.server then none
      else some ⟨p, { l with
        toServer := os
        toClient := l.toClient ++ (M.step l.server o).2
        server := (M.step l.server o).1
        served := l.served ++ (M.step l.server o).2 }⟩

/-- **One step of a run**: the client's or the server's. -/
def Step (c c' : Config S O I F E α) : Prop :=
  clientStep M view c = some c' ∨ serverStep M c = some c'

/-- A run: any number of steps. -/
def Reach : Config S O I F E α → Config S O I F E α → Prop := ReflTransGen (Step M view)

/-- No step leaves the configuration. -/
def Terminal (c : Config S O I F E α) : Prop := ∀ c', ¬ Step M view c c'

/-- The client waits, the server lives, and nothing is on the way. -/
def Stuck (c : Config S O I F E α) : Prop :=
  (∃ k, c.client = .recv k) ∧ M.down c.link.server = false ∧
    c.link.toServer = [] ∧ c.link.toClient = []

end Steps

variable {M : Machine S O I} {view : I → Option F}

/-- The ways in which a step can be taken, each with what it does to the configuration. -/
inductive Move (M : Machine S O I) (view : I → Option F) :
    Config S O I F E α → Config S O I F E α → Prop
  | send (o : O) (k : Proc O F E α) (l : Link S O I E) :
      Move M view ⟨.send o k, l⟩
        ⟨k, { l with toServer := l.toServer ++ [o], sent := l.sent ++ [o] }⟩
  | emit (e : E) (k : Proc O F E α) (l : Link S O I E) :
      Move M view ⟨.emit e k, l⟩ ⟨k, { l with log := l.log ++ [e] }⟩
  | take (k : Option F → Proc O F E α) {l : Link S O I E} {f : F}
      (hf : l.toClient.head?.bind view = some f) :
      Move M view ⟨.recv k, l⟩ ⟨k (some f), { l with toClient := l.toClient.tail }⟩
  | hangUp (k : Option F → Proc O F E α) {l : Link S O I E} (hdown : M.down l.server = true) :
      Move M view ⟨.recv k, l⟩ ⟨k none, l⟩
  | serve (p : Proc O F E α) {l : Link S O I E} {o : O} {os : List O} (hts : l.toServer = o :: os)
      (hlive : ¬ M.down l.server = true) :
      Move M view ⟨p, l⟩ ⟨p, { l with
        toServer := os
        toClient := l.toClient ++ (M.step l.server o).2
        server := (M.step l.server o).1
        served := l.served ++ (M.step l.server o).2 }⟩

/-- What a step can do: everything proved about all steps goes through these five cases. -/
theorem Step.move {c c' : Config S O I F E α} (h : Step M view c c') : Move M view c c' := by
  obtain ⟨p, l⟩ := c
  rcases h with h | h
  · cases p with
    | ret a => exact absurd h (by simp [clientStep])
    | send o k =>
      obtain rfl := Option.some.inj h
      exact .send o k l
    | emit e k =>
      obtain rfl := Option.some.inj h
      exact .emit e k l
    | recv k =>
      simp only [clientStep] at h
      split at h
      · next f hf =>
        obtain rfl := Option.some.inj h
        exact .take k hf
      · split at h
        · next hdown =>
          obtain rfl := Option.some.inj h
          exact .hangUp k hdown
        · exact absurd h (by simp)
  · simp only [serverStep] at h
    split at h
    · exact absurd h (by simp)
    · next o os hts =>
      split at h
      · exact absurd h (by simp)
      · next hlive =>
        obtain rfl := Option.some.inj h
        exact .serve p hts hlive

/-- A server step leaves the client's own next step possible, and the two
commute. -/
theorem client_server_comm {c c₁ c₂ : Config S O I F E α}
    (h₁ : clientStep M view c = some c₁) (h₂ : serverStep M c = some c₂) :
    ∃ d, serverStep M c₁ = some d ∧ clientStep M view c₂ = some d := by
  obtain ⟨p, ts, tc, s, st, sv, lg⟩ := c
  cases ts with
  | nil => simp [serverStep] at h₂
  | cons o os =>
    simp only [serverStep] at h₂
    split at h₂
    · exact absurd h₂ (by simp)
    next hlive =>
    obtain rfl := Option.some.inj h₂
    cases p with
    | ret a => exact absurd h₁ (by simp [clientStep])
    | send o' k =>
      -- the client appends to a channel the server takes from at the head
      obtain rfl := Option.some.inj h₁
      exact ⟨_, by simp only [serverStep, List.cons_append]; rw [if_neg hlive], rfl⟩
    | emit e k =>
      obtain rfl := Option.some.inj h₁
      -- recording an event touches no channel
      exact ⟨_, by simp only [serverStep]; rw [if_neg hlive], rfl⟩
    | recv k =>
      simp only [clientStep] at h₁ ⊢
      split at h₁
      · next f hf =>
        -- the item read is at the head of a channel that only grows at its end
        obtain rfl := Option.some.inj h₁
        cases tc with
        | nil => exact absurd hf (by simp)
        | cons i is =>
          have hi : view i = some f := hf
          exact ⟨_, by simp only [serverStep]; rw [if_neg hlive], by simp [hi]⟩
      · -- only a server that is down, and takes no steps, ends a wait
        exact absurd h₁ (by rw [if_neg hlive]; simp)

/-- **The diamond.** Two steps from one configuration are the same step, or they
commute. -/
theorem Step.diamond {c c₁ c₂ : Config S O I F E α} (h₁ : Step M view c c₁)
    (h₂ : Step M view c c₂) : c₁ = c₂ ∨ ∃ d, Step M view c₁ d ∧ Step M view c₂ d := by
  rcases h₁ with h₁ | h₁ <;> rcases h₂ with h₂ | h₂
  · exact Or.inl (Option.some.inj (h₁.symm.trans h₂))
  · obtain ⟨d, hs, hc⟩ := client_server_comm h₁ h₂
    exact Or.inr ⟨d, Or.inr hs, Or.inl hc⟩
  · obtain ⟨d, hs, hc⟩ := client_server_comm h₂ h₁
    exact Or.inr ⟨d, Or.inl hc, Or.inr hs⟩
  · exact Or.inl (Option.some.inj (h₁.symm.trans h₂))

/-- Runs are confluent. -/
theorem Reach.confluent {c c₁ c₂ : Config S O I F E α} (h₁ : Reach M view c c₁)
    (h₂ : Reach M view c c₂) : ∃ d, Reach M view c₁ d ∧ Reach M view c₂ d := by
  -- one step on each side closes the diamond, so runs of any length do
  refine church_rosser (fun a b c hb hc => ?_) h₁ h₂
  rcases hb.diamond hc with rfl | ⟨d, hbd, hcd⟩
  · exact ⟨b, .refl, .refl⟩
  · exact ⟨d, .single hbd, .single hcd⟩

theorem Terminal.eq_of_reach {c c' : Config S O I F E α} (ht : Terminal M view c)
    (h : Reach M view c c') : c' = c := by
  rcases h.cases_head with rfl | ⟨d, hd, -⟩
  · rfl
  · exact absurd hd (ht d)

theorem Stuck.terminal {c : Config S O I F E α} (h : Stuck M c) : Terminal M view c := by
  obtain ⟨⟨k, hk⟩, hlive, hts, htc⟩ := h
  obtain ⟨p, ts, tc, s, st, sv, lg⟩ := c
  simp only at hk hlive hts htc
  subst hk hts htc
  rintro c' (hc | hc)
  · simp [clientStep, hlive] at hc
  · simp [serverStep] at hc

/-! ### The eager schedule -/

/-- Hand one item to the server, which answers it at once unless it is down. -/
def Link.deliver (M : Machine S O I) (l : Link S O I E) (o : O) : Link S O I E :=
  if M.down l.server then { l with toServer := l.toServer ++ [o], sent := l.sent ++ [o] }
  else { l with
    toClient := l.toClient ++ (M.step l.server o).2
    server := (M.step l.server o).1
    sent := l.sent ++ [o]
    served := l.served ++ (M.step l.server o).2 }

/-- The schedule in which the server answers every item at once. -/
def exec (M : Machine S O I) (view : I → Option F) :
    Proc O F E α → Link S O I E → Config S O I F E α
  | .ret a, l => ⟨.ret a, l⟩
  | .send o k, l => exec M view k (l.deliver M o)
  | .emit e k, l => exec M view k { l with log := l.log ++ [e] }
  | .recv k, l =>
    match l.toClient.head?.bind view with
    | some f => exec M view (k (some f)) { l with toClient := l.toClient.tail }
    | none => if M.down l.server then exec M view (k none) l else ⟨.recv k, l⟩

/-- Nothing has happened yet. -/
def Link.start (s : S) : Link S O I E := ⟨[], [], s, [], [], []⟩

/-- A live server answers what it is handed. -/
theorem Link.deliver_of_up {l : Link S O I E} (h : M.down l.server = false) (o : O) :
    l.deliver M o = { l with
      toClient := l.toClient ++ (M.step l.server o).2
      server := (M.step l.server o).1
      sent := l.sent ++ [o]
      served := l.served ++ (M.step l.server o).2 } := by
  rw [Link.deliver, h]
  rfl

/-- The client takes the item at the head of its channel. -/
theorem exec_recv {k : Option F → Proc O F E α} {l : Link S O I E} {i : I} {is : List I} {f : F}
    (hl : l.toClient = i :: is) (hi : view i = some f) :
    exec M view (.recv k) l = exec M view (k (some f)) { l with toClient := is } := by
  simp [exec, hl, hi]

/-- The client waits for a live server. -/
theorem exec_recv_nil {k : Option F → Proc O F E α} {l : Link S O I E} (hl : l.toClient = [])
    (h : M.down l.server = false) : exec M view (.recv k) l = ⟨.recv k, l⟩ := by
  simp [exec, hl, h]

/-- Sending items one after another delivers them one after another. -/
theorem exec_sends (os : List O) (k : Proc O F E α) :
    ∀ l : Link S O I E, exec M view (os.foldr .send k) l =
      exec M view k (os.foldl (fun l o => l.deliver M o) l) := by
  induction os with
  | nil => intro l; rfl
  | cons o os ih => intro l; exact ih _

/-- Nothing is on the way to a live server. -/
def Link.Settled (M : Machine S O I) (l : Link S O I E) : Prop :=
  l.toServer = [] ∨ M.down l.server = true

theorem Link.Settled.deliver {l : Link S O I E} (h : l.Settled M) (o : O) :
    (l.deliver M o).Settled M := by
  unfold Link.deliver
  split
  · next hd => exact Or.inr hd
  · next hd => exact Or.inl (h.resolve_right hd)

/-- Sending an item and letting the server answer it is a run. -/
theorem reach_deliver {l : Link S O I E} (h : l.Settled M) (o : O) (k : Proc O F E α) :
    Reach M view ⟨.send o k, l⟩ ⟨k, l.deliver M o⟩ := by
  have hsend : Step M view ⟨.send o k, l⟩
      ⟨k, { l with toServer := l.toServer ++ [o], sent := l.sent ++ [o] }⟩ := Or.inl rfl
  unfold Link.deliver
  split
  · exact ReflTransGen.single hsend
  · next hd =>
    refine ReflTransGen.head hsend (ReflTransGen.single (Or.inr ?_))
    have hts : l.toServer = [] := h.resolve_right hd
    simp only [serverStep, hts, List.nil_append]
    rw [if_neg hd]

/-- The eager schedule is a run. -/
theorem exec_reach (p : Proc O F E α) :
    ∀ {l : Link S O I E}, l.Settled M → Reach M view ⟨p, l⟩ (exec M view p l) := by
  induction p with
  | ret a => intro l _; exact ReflTransGen.refl
  | send o k ih =>
    intro l h
    exact (reach_deliver h o k).trans (ih (h.deliver o))
  | emit e k ih =>
    intro l h
    exact ReflTransGen.head (Or.inl rfl) (ih h)
  | recv k ih =>
    intro l h
    unfold exec
    split
    · next f hf =>
      refine ReflTransGen.head (Or.inl ?_) (ih (some f) h)
      simp only [clientStep, hf]
    · next hf =>
      split
      · next hd =>
        refine ReflTransGen.head (Or.inl ?_) (ih none h)
        simp only [clientStep, hf]
        rw [if_pos hd]
      · exact ReflTransGen.refl

/-- No step leaves the configuration the eager schedule ends in. -/
theorem exec_terminal (p : Proc O F E α) :
    ∀ {l : Link S O I E}, l.Settled M → Terminal M view (exec M view p l) := by
  -- with nothing on the way, or down, the server has no step
  have hserver : ∀ (q : Proc O F E α) {l : Link S O I E}, l.Settled M →
      serverStep M (⟨q, l⟩ : Config S O I F E α) = none := by
    intro q l h
    rcases h with h | h
    · simp [serverStep, h]
    · cases hts : l.toServer with
      | nil => simp [serverStep, hts]
      | cons o os => simp only [serverStep, hts]; rw [if_pos h]
  induction p with
  | ret a =>
    rintro l h c (hc | hc)
    · exact absurd hc (by simp [exec, clientStep])
    · exact absurd hc (by rw [exec, hserver _ h]; simp)
  | send o k ih => intro l h; exact ih (h.deliver o)
  | emit e k ih => intro l h; exact ih h
  | recv k ih =>
    intro l h
    unfold exec
    split
    · next f hf => exact ih (some f) h
    · next hf =>
      split
      · exact ih none h
      · next hd =>
        rintro c (hc | hc)
        · simp only [clientStep, hf] at hc
          exact absurd hc (by rw [if_neg hd]; simp)
        · exact absurd hc (by rw [hserver _ h]; simp)

/-- **Adequacy of the eager schedule.** Every run extends to the configuration the
eager schedule ends in. -/
theorem reach_exec {p : Proc O F E α} {l : Link S O I E} (hl : l.Settled M)
    {c : Config S O I F E α} (h : Reach M view ⟨p, l⟩ c) : Reach M view c (exec M view p l) := by
  obtain ⟨d, hcd, hed⟩ := h.confluent (exec_reach p hl)
  rwa [(exec_terminal p hl).eq_of_reach hed] at hcd

/-- A run that can go no further has ended where the eager schedule ends. -/
theorem eq_exec_of_terminal {p : Proc O F E α} {l : Link S O I E} (hl : l.Settled M)
    {c : Config S O I F E α} (h : Reach M view ⟨p, l⟩ c) (ht : Terminal M view c) :
    c = exec M view p l :=
  (ht.eq_of_reach (reach_exec hl h)).symm

/-- A client that has returned stays so. -/
theorem Reach.client_ret {a : α} {l : Link S O I E} {c : Config S O I F E α}
    (h : Reach M view ⟨.ret a, l⟩ c) : c.client = .ret a := by
  induction h with
  | refl => rfl
  | tail _ hstep ih =>
    -- only the server still moves, and it leaves the client alone
    cases hstep.move with
    | serve p _ _ => exact ih
    | send | emit | take | hangUp => exact absurd ih (by simp)

/-! ### Histories only grow -/

theorem Step.histories {c c' : Config S O I F E α} (h : Step M view c c') :
    c.link.sent <+: c'.link.sent ∧ c.link.served <+: c'.link.served ∧
      c.link.log <+: c'.link.log := by
  cases h.move with
  | send => exact ⟨List.prefix_append _ _, List.prefix_refl _, List.prefix_refl _⟩
  | emit => exact ⟨List.prefix_refl _, List.prefix_refl _, List.prefix_append _ _⟩
  | take => exact ⟨List.prefix_refl _, List.prefix_refl _, List.prefix_refl _⟩
  | hangUp => exact ⟨List.prefix_refl _, List.prefix_refl _, List.prefix_refl _⟩
  | serve => exact ⟨List.prefix_refl _, List.prefix_append _ _, List.prefix_refl _⟩

theorem Reach.histories {c c' : Config S O I F E α} (h : Reach M view c c') :
    c.link.sent <+: c'.link.sent ∧ c.link.served <+: c'.link.served ∧
      c.link.log <+: c'.link.log := by
  induction h with
  | refl => exact ⟨List.prefix_refl _, List.prefix_refl _, List.prefix_refl _⟩
  | tail _ hstep ih =>
    obtain ⟨h₁, h₂, h₃⟩ := hstep.histories
    exact ⟨ih.1.trans h₁, ih.2.1.trans h₂, ih.2.2.trans h₃⟩

/-! ### Running one program after another -/

/-- Run `p`, then go on with its result. -/
def Proc.bind : Proc O F E α → (α → Proc O F E β) → Proc O F E β
  | .ret a, f => f a
  | .send o k, f => .send o (k.bind f)
  | .emit e k, f => .emit e (k.bind f)
  | .recv k, f => .recv fun i => (k i).bind f

/-- The eager schedule runs `p`, and on its return what follows it; a blocked `p`
blocks the whole. -/
theorem exec_bind (p : Proc O F E α) (f : α → Proc O F E β) :
    ∀ l : Link S O I E, exec M view (p.bind f) l =
      match exec M view p l with
      | ⟨.ret a, l'⟩ => exec M view (f a) l'
      | ⟨q, l'⟩ => ⟨q.bind f, l'⟩ := by
  induction p with
  | ret a => intro l; rfl
  | send o k ih => intro l; exact ih _
  | emit e k ih => intro l; exact ih _
  | recv k ih =>
    intro l
    simp only [Proc.bind, exec]
    split
    · exact ih _ _
    · split
      · exact ih _ _
      · rfl

/-- A program that returns is followed by the next one. -/
theorem exec_bind_of_ret {p : Proc O F E α} {l l' : Link S O I E} {a : α}
    (h : exec M view p l = ⟨.ret a, l'⟩) (f : α → Proc O F E β) :
    exec M view (p.bind f) l = exec M view (f a) l' := by
  rw [exec_bind, h]

/-- A program that is blocked is not. -/
theorem exec_bind_of_recv {p : Proc O F E α} {l l' : Link S O I E} {k : Option F → Proc O F E α}
    (h : exec M view p l = ⟨.recv k, l'⟩) (f : α → Proc O F E β) :
    exec M view (p.bind f) l = ⟨.recv fun i => (k i).bind f, l'⟩ := by
  rw [exec_bind, h]
  rfl

/-- A program that returns with what follows it returns by itself. -/
theorem exec_bind_eq_ret {p : Proc O F E α} {f : α → Proc O F E β} {l l' : Link S O I E} {b : β}
    (h : exec M view (p.bind f) l = ⟨.ret b, l'⟩) :
    ∃ a l₁, exec M view p l = ⟨.ret a, l₁⟩ ∧ exec M view (f a) l₁ = ⟨.ret b, l'⟩ := by
  rw [exec_bind] at h
  cases hp : exec M view p l with
  | mk q l₁ =>
    rw [hp] at h
    cases q with
    | ret a => exact ⟨a, l₁, rfl, h⟩
    | send | recv | emit => exact absurd (congrArg Config.client h) (by simp [Proc.bind])

/-! ### Links in the same state -/

/-- The links are in the same state, whatever has happened on them before. -/
structure Link.Same (l l' : Link S O I E) : Prop where
  toServer : l.toServer = l'.toServer
  toClient : l.toClient = l'.toClient
  server : l.server = l'.server

theorem Link.Same.deliver {l l' : Link S O I E} (h : l.Same l') (o : O) :
    (l.deliver M o).Same (l'.deliver M o) := by
  obtain ⟨hts, htc, hserver⟩ := h
  unfold Link.deliver
  rw [hts, htc, hserver]
  split <;> exact ⟨rfl, rfl, rfl⟩

/-- **A run depends on the state of its link alone.** -/
theorem Link.Same.exec (p : Proc O F E α) : ∀ {l l' : Link S O I E}, l.Same l' →
    (Duplex.exec M view p l).client = (Duplex.exec M view p l').client ∧
      (Duplex.exec M view p l).link.Same (Duplex.exec M view p l').link := by
  induction p with
  | ret a => exact fun h => ⟨rfl, h⟩
  | send o k ih => exact fun h => ih (h.deliver o)
  | emit e k ih => exact fun h => ih ⟨h.toServer, h.toClient, h.server⟩
  | recv k ih =>
    intro l l' h
    obtain ⟨hts, htc, hserver⟩ := h
    unfold Duplex.exec
    rw [htc, hserver]
    split
    · exact ih _ ⟨hts, rfl, rfl⟩
    · split
      · exact ih _ ⟨hts, htc, hserver⟩
      · exact ⟨rfl, hts, htc, hserver⟩

/-- What a program returns on a new link it returns on any in that state. -/
theorem exec_of_start {p : Proc O F E α} {l l₀ : Link S O I E} {a : α} (hts : l.toServer = [])
    (htc : l.toClient = []) (h : exec M view p (Link.start l.server) = ⟨.ret a, l₀⟩) :
    ∃ l', exec M view p l = ⟨.ret a, l'⟩ ∧ l'.Same l₀ := by
  have hsame : l.Same (Link.start l.server : Link S O I E) := ⟨hts, htc, rfl⟩
  obtain ⟨hclient, hlink⟩ := hsame.exec p
  rw [h] at hclient hlink
  exact ⟨_, congrArg (Config.mk · _) hclient, hlink⟩

/-! ### A peer that has said all it will say -/

/-- What a program makes of these items, after which the peer is gone: its result, and the
items it has not read. -/
def Proc.hears : Proc O F E α → List F → α × List F
  | .ret a, fs => (a, fs)
  | .send _ k, fs => k.hears fs
  | .emit _ k, fs => k.hears fs
  | .recv k, [] => (k none).hears []
  | .recv k, f :: fs => (k (some f)).hears fs

theorem Proc.hears_bind (p : Proc O F E α) (f : α → Proc O F E β) :
    ∀ fs, (p.bind f).hears fs = (f (p.hears fs).1).hears (p.hears fs).2 := by
  induction p with
  | ret a => exact fun _ => rfl
  | send o k ih => exact ih
  | emit e k ih => exact ih
  | recv k ih =>
    rintro (_ | ⟨i, fs⟩)
    · exact ih none []
    · exact ih (some i) fs

/-! ### Invariants of a run -/

/-- Whatever it receives, the program sends only items with `P`. -/
def Proc.Sends (P : O → Prop) : Proc O F E α → Prop
  | .ret _ => True
  | .send o k => P o ∧ k.Sends P
  | .emit _ k => k.Sends P
  | .recv k => ∀ i, (k i).Sends P

theorem Proc.Sends.bind {P : O → Prop} {p : Proc O F E α} {f : α → Proc O F E β} (hp : p.Sends P)
    (hf : ∀ a, (f a).Sends P) : (p.bind f).Sends P := by
  induction p with
  | ret a => exact hf a
  | send o k ih => exact ⟨hp.1, ih hp.2⟩
  | emit e k ih => exact ih hp
  | recv k ih =>
    intro i
    exact ih i (hp i)

theorem Proc.Sends.mono {P P' : O → Prop} {p : Proc O F E α} (hp : p.Sends P)
    (h : ∀ o, P o → P' o) : p.Sends P' := by
  induction p with
  | ret a => trivial
  | send o k ih => exact ⟨h o hp.1, ih hp.2⟩
  | emit e k ih => exact ih hp
  | recv k ih =>
    intro i
    exact ih i (hp i)

/-- Whatever it receives, the program sends at most `n` items. -/
def Proc.SendsAtMost : Proc O F E α → ℕ → Prop
  | .ret _, _ => True
  | .send _ _, 0 => False
  | .send _ k, n + 1 => k.SendsAtMost n
  | .emit _ k, n => k.SendsAtMost n
  | .recv k, n => ∀ i, (k i).SendsAtMost n

/-- What a run leaves for the client was there before, or answers what the program sent. -/
theorem forall_toClient_exec {P : O → Prop} {Q : I → Prop}
    (hreact : ∀ s o, P o → ∀ i ∈ (M.step s o).2, Q i) (p : Proc O F E α) :
    ∀ {l : Link S O I E}, p.Sends P → (∀ i ∈ l.toClient, Q i) →
      ∀ i ∈ (exec M view p l).link.toClient, Q i := by
  induction p with
  | ret a => exact fun _ hl => hl
  | send o k ih =>
    intro l hp hl
    refine ih hp.2 ?_
    unfold Link.deliver
    split
    · exact hl
    · intro i hi
      exact (List.mem_append.mp hi).elim (hl i) (hreact l.server o hp.1 i)
  | emit e k ih => exact fun hp hl => ih hp hl
  | recv k ih =>
    intro l hp hl
    unfold exec
    split
    · exact ih _ (hp _) fun i hi => hl i (List.mem_of_mem_tail hi)
    · split
      · exact ih _ (hp _) hl
      · exact hl

/-- And it is not more than the answers can be. -/
theorem length_toClient_exec {r : ℕ} (hreact : ∀ s o, (M.step s o).2.length ≤ r)
    (p : Proc O F E α) :
    ∀ {l : Link S O I E} {n : ℕ}, p.SendsAtMost n →
      (exec M view p l).link.toClient.length ≤ l.toClient.length + n * r := by
  induction p with
  | ret a => exact fun _ => Nat.le_add_right _ _
  | send o k ih =>
    intro l n hp
    cases n with
    | zero => exact absurd hp id
    | succ n =>
      have hdeliver : (l.deliver M o).toClient.length ≤ l.toClient.length + r := by
        unfold Link.deliver
        split
        · exact Nat.le_add_right _ _
        · simp only [List.length_append]
          exact Nat.add_le_add_left (hreact l.server o) _
      calc (exec M view k (l.deliver M o)).link.toClient.length
          ≤ (l.deliver M o).toClient.length + n * r := ih hp
        _ ≤ l.toClient.length + (n + 1) * r := by
          rw [Nat.succ_mul]
          omega
  | emit e k ih => exact fun hp => ih hp
  | recv k ih =>
    intro l n hp
    unfold exec
    split
    · refine (ih _ (hp _)).trans (Nat.add_le_add_right ?_ _)
      exact List.length_tail ▸ Nat.sub_le _ _
    · split
      · exact ih _ (hp _)
      · exact Nat.le_add_right _ _

/-- Everything sent has `P`, everything served has `Q`, and the server is in a state
with `J`. -/
structure Config.Keeps (P : O → Prop) (Q : I → Prop) (J : S → Prop) (c : Config S O I F E α) :
    Prop where
  sends : c.client.Sends P
  toServer : ∀ o ∈ c.link.toServer, P o
  server : J c.link.server
  sent : ∀ o ∈ c.link.sent, P o
  served : ∀ i ∈ c.link.served, Q i

section Keeps

variable {P : O → Prop} {Q : I → Prop} {J : S → Prop}

theorem Config.Keeps.start {p : Proc O F E α} {s : S} (hp : p.Sends P) (hs : J s) :
    (⟨p, Link.start s⟩ : Config S O I F E α).Keeps P Q J :=
  ⟨hp, fun _ h => absurd h (List.not_mem_nil), hs, fun _ h => absurd h (List.not_mem_nil),
    fun _ h => absurd h (List.not_mem_nil)⟩

/-- One step keeps what one reaction of the server keeps. -/
theorem Config.Keeps.step {c c' : Config S O I F E α}
    (hreact : ∀ s o, J s → P o → J (M.step s o).1 ∧ ∀ i ∈ (M.step s o).2, Q i)
    (h : c.Keeps P Q J) (hstep : Step M view c c') : c'.Keeps P Q J := by
  have happend : ∀ {X : Type} {R : X → Prop} {xs ys : List X}, (∀ x ∈ xs, R x) →
      (∀ y ∈ ys, R y) → ∀ x ∈ xs ++ ys, R x := by
    intro X R xs ys hxs hys x hx
    exact (List.mem_append.mp hx).elim (hxs x) (hys x)
  obtain ⟨hsends, htoServer, hs, hst, hsv⟩ := h
  cases hstep.move with
  | send o k l =>
    -- the item goes on the channel and into the history
    have ho : ∀ x ∈ [o], P x := by simpa using hsends.1
    exact ⟨hsends.2, happend htoServer ho, hs, happend hst ho, hsv⟩
  | emit e k l => exact ⟨hsends, htoServer, hs, hst, hsv⟩
  | take k hf => exact ⟨hsends _, htoServer, hs, hst, hsv⟩
  | hangUp k hdown => exact ⟨hsends _, htoServer, hs, hst, hsv⟩
  | @serve p l o os hts hlive =>
    -- the server takes an item that has `P`
    simp only [hts] at htoServer
    obtain ⟨hs', hout⟩ := hreact l.server o hs (htoServer o List.mem_cons_self)
    exact ⟨hsends, fun x hx => htoServer x (List.mem_cons_of_mem o hx), hs', hst,
      happend hsv hout⟩

/-- **Invariants.** What holds at the start and is kept by the server's reactions to the
items the program sends holds along every run. -/
theorem Config.Keeps.reach {c c' : Config S O I F E α}
    (hreact : ∀ s o, J s → P o → J (M.step s o).1 ∧ ∀ i ∈ (M.step s o).2, Q i)
    (h : c.Keeps P Q J) (hrun : Reach M view c c') : c'.Keeps P Q J := by
  induction hrun with
  | refl => exact h
  | tail _ hstep ih => exact ih.step hreact hstep

end Keeps

end Duplex
