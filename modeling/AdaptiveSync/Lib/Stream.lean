import AdaptiveSync.Lib.Duplex

/-!
# A program at the end of a byte stream

A `Duplex.Proc` whose items are not handed over whole: they are cut off the head of a stream
by a decoder, which may have to wait for more of the stream.

* `Proc.feed` is the result of a program on a stream, if the stream is long enough for it.
* A `Reader` is a program in the middle of a stream; `Reader.Move` is one step of it. The
  stream may also end, and then a program that has to wait learns that its peer is gone.
* `Reader.Explained.result`: a reader that has returned returned what `feed` computes from
  the stream it received, or what its program returns when the stream ends.

The decoder must be `Prompt`: what comes later does not change the item it found.
-/

namespace Duplex

variable {O F E α β : Type}

/-- The decoder does not look ahead. -/
def Prompt (read : List β → Option (F × List β)) : Prop :=
  ∀ s f r, read s = some (f, r) → ∀ t, read (s ++ t) = some (f, r ++ t)

/-- The result of a program on a stream, with what it leaves of the stream; `none` when it
waits for more. -/
def Proc.feed (read : List β → Option (F × List β)) :
    Proc O F E α → List β → Option (α × List β)
  | .ret a, s => some (a, s)
  | .send _ k, s => k.feed read s
  | .emit _ k, s => k.feed read s
  | .recv k, s => (read s).bind fun fr => (k (some fr.1)).feed read fr.2

variable {read : List β → Option (F × List β)}

theorem Proc.feed_recv {k : Option F → Proc O F E α} {s r : List β} {f : F}
    (h : read s = some (f, r)) : (Proc.recv k).feed read s = (k (some f)).feed read r := by
  rw [feed, h, Option.bind_some]

theorem Proc.feed_recv_none {k : Option F → Proc O F E α} {s : List β} (h : read s = none) :
    (Proc.recv k).feed read s = none := by
  rw [feed, h, Option.bind_none]

/-- A program is followed by the next one on what it leaves of the stream. -/
theorem Proc.feed_bind {γ : Type} (p : Proc O F E α) (f : α → Proc O F E γ) :
    ∀ s, (p.bind f).feed read s = (p.feed read s).bind fun ar => (f ar.1).feed read ar.2 := by
  induction p with
  | ret a => exact fun _ => rfl
  | send o k ih => exact ih
  | emit e k ih => exact ih
  | recv k ih =>
    intro s
    cases hs : read s with
    | none => rw [Proc.bind, feed_recv_none hs, feed_recv_none hs, Option.bind_none]
    | some fr => rw [Proc.bind, feed_recv hs, feed_recv hs, ih]

/-- More of the stream does not change a result. -/
theorem Proc.feed_append (hread : Prompt read) {p : Proc O F E α} {a : α} {r : List β} :
    ∀ {s : List β}, p.feed read s = some (a, r) → ∀ t, p.feed read (s ++ t) = some (a, r ++ t) := by
  induction p with
  | ret b =>
    intro s h t
    obtain ⟨rfl, rfl⟩ := Prod.mk.inj (Option.some.inj h)
    rfl
  | send o k ih => exact fun h => ih h
  | emit e k ih => exact fun h => ih h
  | recv k ih =>
    intro s h t
    cases hs : read s with
    | none => exact absurd ((feed_recv_none hs).symm.trans h) (by simp)
    | some fr =>
      obtain ⟨f, r⟩ := fr
      rw [feed_recv hs] at h
      rw [feed_recv (hread s f r hs t)]
      exact ih (some f) h t

/-- Whenever its peer is gone, the program returns a result with `Q`. -/
def Proc.EndsWith (Q : α → Prop) : Proc O F E α → Prop
  | .ret _ => True
  | .send _ k => k.EndsWith Q
  | .emit _ k => k.EndsWith Q
  | .recv k => (∃ a, k none = .ret a ∧ Q a) ∧ ∀ f, (k (some f)).EndsWith Q

theorem Proc.EndsWith.bind {γ : Type} {Q : α → Prop} {Q' : γ → Prop} {p : Proc O F E α}
    {f : α → Proc O F E γ} (hp : p.EndsWith Q) (hQ : ∀ a, Q a → ∃ b, f a = .ret b ∧ Q' b)
    (hf : ∀ a, (f a).EndsWith Q') : (p.bind f).EndsWith Q' := by
  induction p with
  | ret a => exact hf a
  | send o k ih => exact ih hp
  | emit e k ih => exact ih hp
  | recv k ih =>
    obtain ⟨⟨a, hk, ha⟩, hsome⟩ := hp
    obtain ⟨b, hb, hQb⟩ := hQ a ha
    exact ⟨⟨b, by simp only [hk, Proc.bind, hb], hQb⟩, fun i => ih (some i) (hsome i)⟩

/-! ### Readers -/

/-- A program in the middle of a stream. -/
structure Reader (O F E α β : Type) where
  program : Proc O F E α
  /-- All of the stream that has arrived. -/
  received : List β
  /-- What of it has not been read yet. -/
  unread : List β

/-- A program before its stream. -/
def Reader.start (p : Proc O F E α) : Reader O F E α β := ⟨p, [], []⟩

/-- One step of a reader, with what it sends. -/
inductive Reader.Move (read : List β → Option (F × List β)) (ended : Bool) :
    Reader O F E α β → List O → Reader O F E α β → Prop
  | send (o : O) (k : Proc O F E α) (s u : List β) :
      Move read ended ⟨.send o k, s, u⟩ [o] ⟨k, s, u⟩
  | emit (e : E) (k : Proc O F E α) (s u : List β) :
      Move read ended ⟨.emit e k, s, u⟩ [] ⟨k, s, u⟩
  | take (k : Option F → Proc O F E α) (s : List β) {u r : List β} {f : F}
      (hread : read u = some (f, r)) : Move read ended ⟨.recv k, s, u⟩ [] ⟨k (some f), s, r⟩
  | hangUp (k : Option F → Proc O F E α) (s : List β) {u : List β} (hended : ended = true)
      (hread : read u = none) : Move read ended ⟨.recv k, s, u⟩ [] ⟨k none, s, u⟩

/-- More of the stream arrives. -/
def Reader.arrive (r : Reader O F E α β) (t : List β) : Reader O F E α β :=
  { r with received := r.received ++ t, unread := r.unread ++ t }

/-- The reader is where `p` is on the stream it received, or it has returned a result with
`Q`. -/
def Reader.Explained (read : List β → Option (F × List β)) (p : Proc O F E α) (Q : α → Prop)
    (r : Reader O F E α β) : Prop :=
  (r.program.EndsWith Q ∧
      ∀ t, p.feed read (r.received ++ t) = r.program.feed read (r.unread ++ t)) ∨
    ∃ a, r.program = .ret a ∧ Q a

variable {p : Proc O F E α} {Q : α → Prop} {r r' : Reader O F E α β}

/-- A reader sends what its program sends, and receives nothing by itself. -/
theorem Reader.Move.sends {P : O → Prop} {ended : Bool} {os : List O}
    (h : r.Move read ended os r') (hp : r.program.Sends P) :
    (∀ o ∈ os, P o) ∧ r'.program.Sends P ∧ r'.received = r.received := by
  cases h with
  | send => exact ⟨by simpa using hp.1, hp.2, rfl⟩
  | emit => exact ⟨by simp, hp, rfl⟩
  | take | hangUp => exact ⟨by simp, hp _, rfl⟩

theorem Reader.explained_start (hp : p.EndsWith Q) : (Reader.start p).Explained read p Q :=
  .inl ⟨hp, fun _ => rfl⟩

theorem Reader.Explained.arrive (h : r.Explained read p Q) (t : List β) :
    (r.arrive t).Explained read p Q := by
  obtain ⟨hend, hfeed⟩ | hret := h
  · refine .inl ⟨hend, fun t' => ?_⟩
    simpa [Reader.arrive] using hfeed (t ++ t')
  · exact .inr hret

theorem Reader.Explained.move (hread : Prompt read) {ended : Bool} {os : List O}
    (h : r.Explained read p Q) (hmove : r.Move read ended os r') : r'.Explained read p Q := by
  obtain ⟨hend, hfeed⟩ | ⟨a, hret, ha⟩ := h
  · cases hmove with
    | send | emit => exact .inl ⟨hend, hfeed⟩
    | take k s hu =>
      refine .inl ⟨hend.2 _, fun t => ?_⟩
      rw [← Proc.feed_recv (k := k) (hread _ _ _ hu t)]
      exact hfeed t
    | hangUp => exact .inr hend.1
  · -- a program that has returned does not move
    cases hmove <;> exact absurd hret (by simp)

/-- **What a reader returns.** -/
theorem Reader.Explained.result (h : r.Explained read p Q) {a : α} (hret : r.program = .ret a) :
    p.feed read r.received = some (a, r.unread) ∨ Q a := by
  obtain ⟨-, hfeed⟩ | ⟨b, hret', hb⟩ := h
  · have hnil := hfeed []
    rw [List.append_nil, List.append_nil, hret] at hnil
    exact .inl hnil
  · obtain rfl := Proc.ret.inj (hret.symm.trans hret')
    exact .inr hb

end Duplex
