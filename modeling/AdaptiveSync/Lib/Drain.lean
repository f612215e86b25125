import Mathlib.Data.Stream.Init

/-!
# Transfers in pieces

A loop that has a number of elements to move calls an operation over and over, each time
asking for what is left. A call moves some of the elements, at least one when it is asked
for one and there is one, or it fails; some failures only mean that the call is to be made
again. `Loop` says how such a loop asks and what it does with the answers, and `Loop.run`
is what it does with a given sequence of answers.

* `Loop.run_append`: what was moved and what is left make up the source.
* `Loop.run_done_iff`: the loop is through exactly when it has moved all it was to move.
* `Loop.run_stable`: a loop that has ended does not look at further answers.
* `Loop.run_of_legal`: a loop that always asks for something, with enough in the source, is
  through after finitely many calls that fail for good at none.
* `Loop.run_short_of_legal`: a loop that gives up on a call that moved nothing moves all of a
  source that is too short, and gives up.
* `Loop.run_waiting`: a loop that goes on after a call that moved nothing never ends when
  the source is too short.
* `Loop.run_ends_of_legal`: a loop that gives up on a call that moved nothing ends in any
  case; `Loop.length_moved_of_barrier`: it is never through when there is a number of elements
  that no call gets below.
-/

namespace Drain

variable {α ε : Type*}

/-- The answer to one call: as many elements as may be moved, or a failure. -/
inductive Reply (ε : Type*) where
  | moves (n : ℕ)
  | fails (e : ε)

/-- How far a loop has come. -/
inductive Status where
  /-- It is in a call that is not answered yet. -/
  | waiting
  | done
  /-- It gave up on a call that moved nothing. -/
  | short
  | failed
  deriving DecidableEq

/-- A loop that moves elements in pieces. -/
structure Loop (ε : Type*) where
  /-- How many elements are asked for when `r` are left. -/
  asked : ℕ → ℕ
  /-- The most a single call moves. -/
  cap : ℕ
  /-- The failures after which the call is made again. -/
  again : ε → Bool
  /-- A call that moved nothing ends the loop. -/
  zeroEnds : Bool
  /-- A call moves no more than is left to move. -/
  tame : ∀ r, min (asked r) cap ≤ r

/-- What a loop leaves behind. -/
structure Outcome (α ε : Type*) where
  moved : List α
  source : List α
  replies : List (Reply ε)
  status : Status

/-- The outcome of a loop that has moved `piece` before. -/
def Outcome.after (o : Outcome α ε) (piece : List α) : Outcome α ε :=
  { o with moved := piece ++ o.moved }

namespace Loop

variable (l : Loop ε)

/-- What a call moves when `r` elements are to be moved, `left` are there and the answer
offers `n`. -/
def served (r left n : ℕ) : ℕ := min (max 1 n) (min (min (l.asked r) l.cap) left)

/-- **The loop** on a sequence of answers, with `r` elements to move. -/
def run : List (Reply ε) → ℕ → List α → Outcome α ε
  | replies, 0, src => ⟨[], src, replies, .done⟩
  | [], _ + 1, src => ⟨[], src, [], .waiting⟩
  | .fails e :: replies, r + 1, src =>
    if l.again e then run replies (r + 1) src else ⟨[], src, replies, .failed⟩
  | .moves n :: replies, r + 1, src =>
    let m := l.served (r + 1) src.length n
    if m = 0 ∧ l.zeroEnds then ⟨[], src, replies, .short⟩
    else (run replies (r + 1 - m) (src.drop m)).after (src.take m)

variable {l} {r : ℕ} {src : List α}

@[simp] theorem run_zero (replies : List (Reply ε)) :
    l.run replies 0 src = ⟨[], src, replies, .done⟩ := by
  cases replies with
  | nil => rfl
  | cons a replies => cases a <;> rfl

theorem served_le (r left n : ℕ) : l.served r left n ≤ r := by
  have := l.tame r
  unfold served
  omega

theorem served_le_left (r left n : ℕ) : l.served r left n ≤ left := by
  unfold served
  omega

theorem served_pos {r left : ℕ} (hasked : 0 < l.asked r) (hcap : 0 < l.cap) (hleft : 0 < left)
    (n : ℕ) : 0 < l.served r left n := by
  unfold served
  omega

theorem served_eq_zero (hasked : l.asked r = 0) (left n : ℕ) : l.served r left n = 0 := by
  unfold served
  omega

/-! ### One answer -/

theorem run_fails_again {e : ε} (he : l.again e = true) (replies : List (Reply ε)) :
    l.run (.fails e :: replies) (r + 1) src = l.run replies (r + 1) src :=
  if_pos he

theorem run_moves {n : ℕ} (h : ¬(l.served (r + 1) src.length n = 0 ∧ l.zeroEnds))
    (replies : List (Reply ε)) :
    l.run (.moves n :: replies) (r + 1) src =
      (l.run replies (r + 1 - l.served (r + 1) src.length n)
        (src.drop (l.served (r + 1) src.length n))).after
        (src.take (l.served (r + 1) src.length n)) :=
  if_neg h

/-! ### What is moved -/

theorem run_append (replies : List (Reply ε)) (r : ℕ) (src : List α) :
    (l.run replies r src).moved ++ (l.run replies r src).source = src := by
  induction replies, r, src using run.induct (l := l) with
  | case1 replies src => simp
  | case2 r src => rfl
  | case3 e replies r src he ih => rw [run_fails_again he]; exact ih
  | case4 e replies r src he => rw [run, if_neg he]; rfl
  | case5 n replies r src m hm => rw [run, if_pos hm]; rfl
  | case6 n replies r src m hm ih =>
    rw [run_moves hm]
    show src.take m ++ (l.run replies (r + 1 - m) (src.drop m)).moved ++ _ = src
    calc src.take m ++ (l.run replies (r + 1 - m) (src.drop m)).moved ++
          (l.run replies (r + 1 - m) (src.drop m)).source
        = src.take m ++ src.drop m := by rw [List.append_assoc, ih]
      _ = src := List.take_append_drop m src

/-- What has been moved is the beginning of the source. -/
theorem run_moved (replies : List (Reply ε)) (r : ℕ) (src : List α) :
    (l.run replies r src).moved <+: src :=
  ⟨_, run_append replies r src⟩

/-- No more is moved than was to be moved, and less while the loop is not through. -/
theorem run_done_iff (replies : List (Reply ε)) (r : ℕ) (src : List α) :
    (l.run replies r src).moved.length ≤ r ∧
      ((l.run replies r src).status = .done ↔ (l.run replies r src).moved.length = r) := by
  induction replies, r, src using run.induct (l := l) with
  | case1 replies src => simp
  | case2 r src => simp [run]
  | case3 e replies r src he ih => rw [run_fails_again he]; exact ih
  | case4 e replies r src he => simp [run, he]
  | case5 n replies r src m hm => rw [run, if_pos hm]; simp
  | case6 n replies r src m hm ih =>
    have hm₁ : m ≤ r + 1 := served_le _ _ _
    have hm₂ : (src.take m).length = m := List.length_take_of_le (served_le_left _ _ _)
    obtain ⟨hle, hdone⟩ := ih
    rw [run_moves hm]
    show (src.take m ++ (l.run replies (r + 1 - m) (src.drop m)).moved).length ≤ r + 1 ∧
      ((l.run replies (r + 1 - m) (src.drop m)).status = .done ↔
        (src.take m ++ (l.run replies (r + 1 - m) (src.drop m)).moved).length = r + 1)
    rw [List.length_append, hm₂, hdone]
    omega

/-- Answers that come after the end are not touched. -/
theorem run_stable {replies : List (Reply ε)} (h : (l.run replies r src).status ≠ .waiting)
    (more : List (Reply ε)) :
    l.run (replies ++ more) r src =
      { l.run replies r src with replies := (l.run replies r src).replies ++ more } := by
  induction replies, r, src using run.induct (l := l) with
  | case1 replies src => simp
  | case2 r src => exact absurd rfl h
  | case3 e replies r src he ih =>
    rw [run_fails_again he] at h ⊢
    rw [List.cons_append, run_fails_again he]
    exact ih h
  | case4 e replies r src he => rw [List.cons_append, run, if_neg he, run, if_neg he]
  | case5 n replies r src m hm => rw [List.cons_append, run, if_pos hm, run, if_pos hm]
  | case6 n replies r src m hm ih =>
    rw [run_moves hm] at h ⊢
    rw [List.cons_append, run_moves hm, ih h]
    rfl

/-! ### That it ends -/

/-- An unending sequence of answers whose failures are among the first `N`, none of them
for good. -/
structure SettlesBy (l : Loop ε) (σ : Stream' (Reply ε)) (N : ℕ) : Prop where
  again : ∀ i e, σ.get i = .fails e → l.again e = true
  moves : ∀ i, N ≤ i → ∃ n, σ.get i = .moves n

/-- An unending sequence of answers with finitely many failures, none of them for good. -/
def Legal (l : Loop ε) (σ : Stream' (Reply ε)) : Prop := ∃ N, SettlesBy l σ N

theorem SettlesBy.drop {σ : Stream' (Reply ε)} {N : ℕ} (h : SettlesBy l σ N) (k : ℕ) :
    SettlesBy l (σ.drop k) (N - k) where
  again := fun i e hi => h.again (k + i) e (by rw [← Stream'.get_drop]; exact hi)
  moves := fun i hi => by
    obtain ⟨n, hn⟩ := h.moves (k + i) (by omega)
    exact ⟨n, by rw [Stream'.get_drop]; exact hn⟩

theorem Legal.drop {σ : Stream' (Reply ε)} (h : Legal l σ) (k : ℕ) : Legal l (σ.drop k) :=
  h.imp' _ fun _ hN => hN.drop k

theorem legal_const (n : ℕ) : Legal l (Stream'.const (.moves n)) :=
  ⟨0, ⟨fun _ _ h => absurd h (by simp [Stream'.get_const]), fun _ _ => ⟨n, rfl⟩⟩⟩

theorem Legal.again_of_mem {σ : Stream' (Reply ε)} (h : Legal l σ) {k : ℕ} {e : ε}
    (he : .fails e ∈ σ.take k) : l.again e = true := by
  induction k generalizing σ with
  | zero => exact absurd he (by simp)
  | succ k ih =>
    rw [Stream'.take_succ, List.mem_cons] at he
    obtain hhead | htail := he
    · obtain ⟨N, hN⟩ := h
      exact hN.again 0 e hhead.symm
    · exact ih (h.drop 1) htail

theorem run_of_settlesBy (hcap : 0 < l.cap) {M : ℕ} :
    ∀ {N r : ℕ} {src : List α} {σ : Stream' (Reply ε)}, N + r = M → SettlesBy l σ N →
      (∀ k, 0 < k → k ≤ r → 0 < l.asked k) → r ≤ src.length →
      ∃ k, ∀ more, l.run (σ.take k ++ more) r src = ⟨src.take r, src.drop r, more, .done⟩ := by
  -- each answer is one of the `N` that may fail, or it moves something
  induction M using Nat.strong_induction_on with
  | _ M ih =>
  intro N r src σ hM hσ hasked hr
  cases r with
  | zero => exact ⟨0, fun more => by simp⟩
  | succ r =>
    have htail : SettlesBy l σ.tail (N - 1) := hσ.drop 1
    cases hhead : σ.head with
    | fails e =>
      -- from `N` on there are no failures, so this one is before it
      have hN : 0 < N := by
        by_contra hc
        obtain ⟨n, hn⟩ := hσ.moves 0 (by omega)
        exact absurd (hhead.symm.trans hn) (by simp)
      obtain ⟨k, hk⟩ := ih (N - 1 + (r + 1)) (by omega) rfl htail hasked hr
      refine ⟨k + 1, fun more => ?_⟩
      rw [Stream'.take_succ, hhead, List.cons_append, run_fails_again (hσ.again 0 e hhead)]
      exact hk more
    | moves n =>
      have hpos : 0 < l.served (r + 1) src.length n :=
        served_pos (hasked _ (by omega) le_rfl) hcap (by omega) n
      have hle : l.served (r + 1) src.length n ≤ r + 1 := served_le _ _ _
      generalize hm : l.served (r + 1) src.length n = m at hpos hle
      have hroom : r + 1 - m ≤ (src.drop m).length := by
        rw [List.length_drop]
        omega
      obtain ⟨k, hk⟩ := ih (N - 1 + (r + 1 - m)) (by omega) rfl htail
        (fun k h₁ h₂ => hasked k h₁ (by omega)) hroom
      refine ⟨k + 1, fun more => ?_⟩
      rw [Stream'.take_succ, hhead, List.cons_append, run_moves (by omega), hm, hk more]
      have hsum : m + (r + 1 - m) = r + 1 := by omega
      show Outcome.mk (src.take m ++ (src.drop m).take (r + 1 - m))
        ((src.drop m).drop (r + 1 - m)) more .done = _
      rw [← List.take_add, List.drop_drop, hsum]

/-- A loop that asks for something whenever something is left, with enough in the source,
is through after finitely many answers, and touches none of the later ones. -/
theorem run_of_legal (hcap : 0 < l.cap) {σ : Stream' (Reply ε)} (hσ : Legal l σ)
    (hasked : ∀ k, 0 < k → k ≤ r → 0 < l.asked k) (hr : r ≤ src.length) :
    ∃ k, ∀ more, l.run (σ.take k ++ more) r src = ⟨src.take r, src.drop r, more, .done⟩ := by
  obtain ⟨N, hN⟩ := hσ
  exact run_of_settlesBy hcap rfl hN hasked hr

theorem run_short_of_settlesBy (hzero : l.zeroEnds = true) (hcap : 0 < l.cap) {M : ℕ} :
    ∀ {N r : ℕ} {src : List α} {σ : Stream' (Reply ε)}, N + src.length = M → SettlesBy l σ N →
      (∀ k, 0 < k → k ≤ r → 0 < l.asked k) → src.length < r →
      ∃ k, ∀ more, l.run (σ.take k ++ more) r src = ⟨src, [], more, .short⟩ := by
  -- each answer is one of the `N` that may fail, or it moves something, or it is the last
  induction M using Nat.strong_induction_on with
  | _ M ih =>
  intro N r src σ hM hσ hasked hr
  obtain ⟨r, rfl⟩ := Nat.exists_eq_succ_of_ne_zero (Nat.ne_zero_of_lt hr)
  have htail : SettlesBy l σ.tail (N - 1) := hσ.drop 1
  cases hhead : σ.head with
  | fails e =>
    have hN : 0 < N := by
      by_contra hc
      obtain ⟨n, hn⟩ := hσ.moves 0 (by omega)
      exact absurd (hhead.symm.trans hn) (by simp)
    obtain ⟨k, hk⟩ := ih (N - 1 + src.length) (by omega) rfl htail hasked hr
    refine ⟨k + 1, fun more => ?_⟩
    rw [Stream'.take_succ, hhead, List.cons_append, run_fails_again (hσ.again 0 e hhead)]
    exact hk more
  | moves n =>
    cases src with
    | nil =>
      -- the call finds the end of the source
      have hserved : l.served (r + 1) 0 n = 0 := by
        unfold served
        omega
      refine ⟨1, fun more => ?_⟩
      rw [Stream'.take_succ, hhead, List.cons_append, run]
      exact if_pos ⟨hserved, hzero⟩
    | cons x xs =>
      have hpos : 0 < l.served (r + 1) (x :: xs).length n :=
        served_pos (hasked _ (by omega) le_rfl) hcap (Nat.succ_pos _) n
      have hleft : l.served (r + 1) (x :: xs).length n ≤ (x :: xs).length :=
        served_le_left _ _ _
      have hle : l.served (r + 1) (x :: xs).length n ≤ r + 1 := served_le _ _ _
      generalize hm : l.served (r + 1) (x :: xs).length n = m at hpos hleft hle
      have hdrop : ((x :: xs).drop m).length = (x :: xs).length - m := List.length_drop
      obtain ⟨k, hk⟩ := @ih (N - 1 + ((x :: xs).drop m).length) (by omega) (N - 1) (r + 1 - m)
        ((x :: xs).drop m) σ.tail rfl htail (fun k h₁ h₂ => hasked k h₁ (by omega)) (by omega)
      refine ⟨k + 1, fun more => ?_⟩
      rw [Stream'.take_succ, hhead, List.cons_append, run_moves (by omega), hm, hk more]
      show Outcome.mk ((x :: xs).take m ++ (x :: xs).drop m) [] more .short = _
      rw [List.take_append_drop]

/-- A loop that gives up on a call that moved nothing does so when the source is too short,
having moved all of it. -/
theorem run_short_of_legal (hzero : l.zeroEnds = true) (hcap : 0 < l.cap)
    {σ : Stream' (Reply ε)} (hσ : Legal l σ) (hasked : ∀ k, 0 < k → k ≤ r → 0 < l.asked k)
    (hr : src.length < r) :
    ∃ k, ∀ more, l.run (σ.take k ++ more) r src = ⟨src, [], more, .short⟩ := by
  obtain ⟨N, hN⟩ := hσ
  exact run_short_of_settlesBy hzero hcap rfl hN hasked hr

/-- A loop that goes on after a call that moved nothing is never through when the source
is too short. -/
theorem run_waiting (hzero : l.zeroEnds = false) {replies : List (Reply ε)}
    (hagain : ∀ e, .fails e ∈ replies → l.again e = true) (hr : src.length < r) :
    (l.run replies r src).status = .waiting := by
  induction replies, r, src using run.induct (l := l) with
  | case1 replies src => omega
  | case2 r src => rfl
  | case3 e replies r src he ih =>
    rw [run_fails_again he]
    exact ih (fun e' he' => hagain e' (List.mem_cons_of_mem _ he')) hr
  | case4 e replies r src he => exact absurd (hagain e List.mem_cons_self) he
  | case5 n replies r src m hm => exact absurd hm.2 (by rw [hzero]; decide)
  | case6 n replies r src m hm ih =>
    rw [run_moves hm]
    have hleft : m ≤ src.length := served_le_left _ _ _
    apply ih (fun e' he' => hagain e' (List.mem_cons_of_mem _ he'))
    rw [List.length_drop]
    omega

theorem run_ends_of_settlesBy (hzero : l.zeroEnds = true) {M : ℕ} :
    ∀ {N r : ℕ} {src : List α} {σ : Stream' (Reply ε)}, N + r = M → SettlesBy l σ N →
      ∃ k moved source status, (status = .done ∨ status = .short) ∧
        ∀ more, l.run (σ.take k ++ more) r src = ⟨moved, source, more, status⟩ := by
  -- each answer is one of the `N` that may fail, or it moves something, or it is the last
  induction M using Nat.strong_induction_on with
  | _ M ih =>
  intro N r src σ hM hσ
  cases r with
  | zero => exact ⟨0, [], src, .done, .inl rfl, fun more => by simp⟩
  | succ r =>
    have htail : SettlesBy l σ.tail (N - 1) := hσ.drop 1
    cases hhead : σ.head with
    | fails e =>
      have hN : 0 < N := by
        by_contra hc
        obtain ⟨n, hn⟩ := hσ.moves 0 (by omega)
        exact absurd (hhead.symm.trans hn) (by simp)
      obtain ⟨k, moved, source, status, hstatus, hk⟩ :=
        @ih (N - 1 + (r + 1)) (by omega) _ _ src _ rfl htail
      refine ⟨k + 1, moved, source, status, hstatus, fun more => ?_⟩
      rw [Stream'.take_succ, hhead, List.cons_append, run_fails_again (hσ.again 0 e hhead)]
      exact hk more
    | moves n =>
      by_cases hm : l.served (r + 1) src.length n = 0
      · refine ⟨1, [], src, .short, .inr rfl, fun more => ?_⟩
        rw [Stream'.take_succ, hhead, List.cons_append, run]
        exact if_pos ⟨hm, hzero⟩
      · have hle : l.served (r + 1) src.length n ≤ r + 1 := served_le _ _ _
        obtain ⟨k, moved, source, status, hstatus, hk⟩ :=
          @ih (N - 1 + (r + 1 - l.served (r + 1) src.length n)) (by omega) _ _
            (src.drop (l.served (r + 1) src.length n)) _ rfl htail
        refine ⟨k + 1, src.take (l.served (r + 1) src.length n) ++ moved, source, status, hstatus,
          fun more => ?_⟩
        rw [Stream'.take_succ, hhead, List.cons_append, run_moves (by omega), hk more]
        rfl

/-- A loop that gives up on a call that moved nothing ends, whatever is to be moved and
whatever there is, and touches none of the later answers. -/
theorem run_ends_of_legal (hzero : l.zeroEnds = true) {σ : Stream' (Reply ε)} (hσ : Legal l σ)
    (r : ℕ) (src : List α) :
    ∃ k moved source status, (status = .done ∨ status = .short) ∧
      ∀ more, l.run (σ.take k ++ more) r src = ⟨moved, source, more, status⟩ := by
  obtain ⟨N, hN⟩ := hσ
  exact run_ends_of_settlesBy hzero rfl hN

/-- Where no call gets below `b` elements, the loop leaves as many. -/
theorem length_moved_of_barrier {b : ℕ} (hb : ∀ r, b ≤ r → min (l.asked r) l.cap + b ≤ r)
    (replies : List (Reply ε)) {r : ℕ} (hr : b ≤ r) (src : List α) :
    (l.run replies r src).moved.length + b ≤ r := by
  induction replies, r, src using run.induct (l := l) with
  | case1 replies src => simpa using hr
  | case2 r src => simpa [run] using hr
  | case3 e replies r src he ih => rw [run_fails_again he]; exact ih hr
  | case4 e replies r src he => rw [run, if_neg he]; simpa using hr
  | case5 n replies r src m hm => rw [run, if_pos hm]; simpa using hr
  | case6 n replies r src m hm ih =>
    have hserved : m ≤ min (l.asked (r + 1)) l.cap := by
      show l.served (r + 1) src.length n ≤ _
      unfold served
      omega
    have hleft := hb (r + 1) hr
    have htake : (src.take m).length = m := List.length_take_of_le (served_le_left _ _ _)
    rw [run_moves hm]
    show (src.take m ++ (l.run replies (r + 1 - m) (src.drop m)).moved).length + b ≤ r + 1
    have hrest := ih (by omega)
    rw [List.length_append, htake]
    omega

end Loop

end Drain
