import Mathlib.Data.List.Perm.Basic
import Mathlib.Data.Multiset.Count
import AdaptiveSync.Server.Listener

/-!
# Shutting the server down

`shutdown` clears `running_` and closes the listening socket. It does nothing to the sessions:
the main thread leaves its loop and then waits, in the destructor, for one thread after the
other. So after a call of `shutdown` the main thread has a bounded number of steps to take,
at most one more connection is taken in, and nothing but a session that goes on keeps the
process from ending (`shutdown_drains`).

Calls of `shutdown` can overlap, when a second signal comes while another thread is still
handling the first. Both can have seen `server_fd_` before either has reset it, and then the
descriptor is closed twice; between the two it may have become that of a file a session has
opened. As long as at most one call is between its test and its assignment, no session loses
a descriptor, and two signals are enough for one to be lost (`session_fds_kept`).
-/

namespace AdaptiveSync

open Loan (Run)

/-! ### After the request -/

/-- The handlers are installed and `running_` has been cleared. -/
def Listener.Stopped (s : Listener) : Prop := s.process.running = false ∧ s.main ≠ .boot

/-- How many steps the main thread has to take at most, with `n` threads to join. -/
def MainPc.rank (n : ℕ) : MainPc → ℕ
  | .boot => 0
  | .ended => 0
  | .joining k => n - k + 1
  | .closing => n + 2
  | .checking => n + 3
  | .shutting .clear => n + 4
  | .shutting .close => n + 5
  | .shutting .test => n + 6
  | .shutting .stop => n + 7
  | .leaving _ => n + 8
  | .loop _ => n + 9
  | .adding _ => n + 10
  | .polling => n + 11
  | .binding => n + 12
  | .opening => n + 13
  -- a thread may be started on the way to the loop
  | .spawning _ _ => n + 11
  | .counting _ _ => n + 12
  | .accepted _ _ => n + 13
  | .accepting _ => n + 14
  | .woken _ _ => n + 15
  | .waiting _ => n + 16

/-- The connections that may still get a thread before the loop looks at `running_`. -/
def MainPc.pending : MainPc → ℕ
  | .waiting _ => 1
  | .woken _ _ => 1
  | .accepting _ => 1
  | .accepted _ _ => 1
  | .counting _ _ => 1
  | .spawning _ _ => 1
  | _ => 0

theorem MainPc.rank_le (n : ℕ) (pc : MainPc) : pc.rank n ≤ n + 16 := by
  cases pc with
  | shutting q => cases q <;> simp [MainPc.rank]
  | _ => simp only [MainPc.rank]; omega

theorem MainPc.pending_le (pc : MainPc) : pc.pending ≤ 1 := by
  cases pc <;> simp [MainPc.pending]

section Drain

variable {config : ServerConfig} {pc pc' : MainPc} {p p' : Process} {s s' : Listener}
  {as : List Actor} {a : Actor}

theorem ShutdownStep.workers {q : ShutdownPc} {q' : Option ShutdownPc}
    (h : ShutdownStep q p q' p') : p'.workerThreads = p.workerThreads := by
  cases h <;> simp

theorem ShutdownStep.running {q : ShutdownPc} {q' : Option ShutdownPc}
    (h : ShutdownStep q p q' p') (hrunning : p.running = false) : p'.running = false := by
  cases h <;> simp [hrunning]

theorem WorkerStep.running {w w' : Worker} (h : WorkerStep w p w' p') :
    p'.running = p.running := by
  cases h <;> simp

/-- Each step of the main thread brings it nearer to its end, and a thread is started only by
one that was about to. -/
theorem MainStep.rank_lt (h : MainStep config pc p pc' p') (hrunning : p.running = false)
    (hboot : pc ≠ .boot) :
    pc'.rank p'.workerThreads.length < pc.rank p.workerThreads.length ∧
      p'.workerThreads.length + pc'.pending ≤ p.workerThreads.length + pc.pending ∧
      p'.running = false ∧ pc' ≠ .boot := by
  cases h with
  | storageFails => exact absurd rfl hboot
  | storage => exact absurd rfl hboot
  | stay hstay => exact absurd (hrunning.symm.trans hstay) (by simp)
  | spawn =>
    refine ⟨?_, ?_, hrunning, nofun⟩
    · simp only [MainPc.rank, List.length_append, List.length_singleton]
      omega
    · simp [MainPc.pending]
  | shut hshut =>
    refine ⟨?_, ?_, hshut.running hrunning, nofun⟩
    · rw [hshut.workers]
      cases hshut <;> simp [MainPc.rank]
    · rw [hshut.workers]
      rfl
  | @shutDone p p' q hshut =>
    refine ⟨?_, ?_, hshut.running hrunning, nofun⟩
    · rw [hshut.workers]
      cases hshut <;> simp [MainPc.rank]
    · rw [hshut.workers]
      rfl
  | join hdone =>
    have hlt := (List.getElem?_eq_some_iff.mp hdone).1
    refine ⟨?_, le_rfl, hrunning, nofun⟩
    simp only [MainPc.rank]
    omega
  | _ => simp [MainPc.rank, MainPc.pending, hrunning]

/-- One step after the request. -/
theorem Listener.Stopped.step (h : s.Stopped) (hstep : Listener.Step config s a s') :
    s'.Stopped ∧
      s'.main.rank s'.process.workerThreads.length + [a].count .main ≤
        s.main.rank s.process.workerThreads.length ∧
      s'.process.workerThreads.length + s'.main.pending ≤
        s.process.workerThreads.length + s.main.pending := by
  obtain ⟨hrunning, hboot⟩ := h
  cases hstep with
  | main hmain =>
    obtain ⟨hrank, hpending, hrunning', hboot'⟩ := hmain.rank_lt hrunning hboot
    exact ⟨⟨hrunning', hboot'⟩, hrank, hpending⟩
  | signal => exact ⟨⟨hrunning, hboot⟩, le_rfl, le_rfl⟩
  | handler hshut =>
    refine ⟨⟨hshut.running hrunning, hboot⟩, ?_, ?_⟩
    · show MainPc.rank _ _ + 0 ≤ _
      rw [hshut.workers]
      exact le_rfl
    · show List.length _ + _ ≤ _
      rw [hshut.workers]
  | worker hk hworker =>
    refine ⟨⟨hworker.running.trans hrunning, hboot⟩, ?_, ?_⟩
    · simp
    · simp

/-- **A run after the request**: the main thread's steps are bounded, and so are the
connections that are taken in. -/
theorem Listener.Stopped.run (h : s.Stopped) (hrun : Listener.Runs config s as s') :
    s'.Stopped ∧
      s'.main.rank s'.process.workerThreads.length + as.count .main ≤
        s.main.rank s.process.workerThreads.length ∧
      s'.process.workerThreads.length + s'.main.pending ≤
        s.process.workerThreads.length + s.main.pending := by
  induction hrun with
  | nil => exact ⟨h, le_rfl, le_rfl⟩
  | snoc _ hlast ih =>
    obtain ⟨hstopped, hrank, hpending⟩ := ih
    obtain ⟨hstopped', hrank', hpending'⟩ := hstopped.step hlast
    refine ⟨hstopped', ?_, hpending'.trans hpending⟩
    rw [List.count_append]
    omega

/-! ### Joining the threads -/

/-- How many threads have been joined. -/
def MainPc.joinedOf (n : ℕ) : MainPc → ℕ
  | .joining k => k
  | .ended => n
  | _ => 0

/-- The threads that have been joined are done. -/
def Joined (pc : MainPc) (workers : List Worker) : Prop :=
  pc.joinedOf workers.length ≤ workers.length ∧
    ∀ k < pc.joinedOf workers.length, workers[k]? = some .done

theorem joined_of_zero {workers : List Worker} (h : pc.joinedOf workers.length = 0) :
    Joined pc workers :=
  ⟨h ▸ Nat.zero_le _, fun k hk => absurd (h ▸ hk) (Nat.not_lt_zero k)⟩

theorem Joined.main (h : Joined pc p.workerThreads) (hstep : MainStep config pc p pc' p') :
    Joined pc' p'.workerThreads := by
  cases hstep with
  | @join p k hdone =>
    refine ⟨(List.getElem?_eq_some_iff.mp hdone).1, fun i hi => ?_⟩
    obtain hlt | rfl := Nat.lt_succ_iff_lt_or_eq.mp hi
    · exact h.2 i hlt
    · exact hdone
  | @joined p k hall =>
    subst hall
    exact h
  | _ => exact joined_of_zero rfl

/-- A thread that is done takes no more steps. -/
theorem Joined.worker {workers : List Worker} {k : ℕ} {w w' : Worker} (h : Joined pc workers)
    (hk : workers[k]? = some w) (hstep : WorkerStep w p w' p') : Joined pc (workers.set k w') := by
  unfold Joined
  rw [List.length_set]
  refine ⟨h.1, fun i hi => ?_⟩
  have hdone := h.2 i hi
  have hne : k ≠ i := by
    rintro rfl
    obtain rfl := Option.some.inj (hk.symm.trans hdone)
    cases hstep
  rw [List.getElem?_set_ne hne]
  exact hdone

theorem joined_of_run (h : Listener.Runs config .start as s) :
    Joined s.main s.process.workerThreads := by
  refine h.induction (J := fun s => Joined s.main s.process.workerThreads) (joined_of_zero rfl) ?_
  intro s a s' hstep hjoined
  cases hstep with
  | main hmain => exact hjoined.main hmain
  | signal => exact hjoined
  | handler hshut =>
    show Joined _ _
    rw [hshut.workers]
    exact hjoined
  | worker hk hworker => exact hjoined.worker hk hworker

/-- The main thread can take a step unless it waits for a thread that is not done. -/
theorem exists_step_or_joining (hjoined : Joined s.main s.process.workerThreads) :
    s.main = .ended ∨ (∃ s', Listener.Step config s .main s') ∨
      ∃ k w, s.main = .joining k ∧ s.process.workerThreads[k]? = some w ∧ w ≠ .done := by
  obtain ⟨pc, p, hs⟩ := s
  cases pc with
  | ended => exact .inl rfl
  | boot => exact .inr (.inl ⟨_, .main .storage⟩)
  | opening => exact .inr (.inl ⟨_, .main .socketFails⟩)
  | binding => exact .inr (.inl ⟨_, .main .listenFails⟩)
  | polling => exact .inr (.inl ⟨_, .main .pollFails⟩)
  | adding ep => exact .inr (.inl ⟨_, .main .addFails⟩)
  | loop ep =>
    cases hrunning : p.running with
    | true => exact .inr (.inl ⟨_, .main (.stay hrunning)⟩)
    | false => exact .inr (.inl ⟨_, .main (.leave hrunning)⟩)
  | waiting ep => exact .inr (.inl ⟨_, .main .timeout⟩)
  | woken ep fd =>
    by_cases h : p.serverFd = some fd
    · exact .inr (.inl ⟨_, .main (.fresh h)⟩)
    · exact .inr (.inl ⟨_, .main (.stale h)⟩)
  | accepting ep => exact .inr (.inl ⟨_, .main .acceptFails⟩)
  | accepted ep client => exact .inr (.inl ⟨_, .main .countTotal⟩)
  | counting ep client => exact .inr (.inl ⟨_, .main .countActive⟩)
  | spawning ep client => exact .inr (.inl ⟨_, .main .spawn⟩)
  | leaving ep => exact .inr (.inl ⟨_, .main .closeEpoll⟩)
  | shutting q =>
    cases q with
    | stop => exact .inr (.inl ⟨_, .main (.shut .stop)⟩)
    | test =>
      by_cases h : p.serverFd = none
      · exact .inr (.inl ⟨_, .main (.shutDone (.testNone h))⟩)
      · exact .inr (.inl ⟨_, .main (.shut (.testSome h))⟩)
    | close => exact .inr (.inl ⟨_, .main (.shut .close)⟩)
    | clear => exact .inr (.inl ⟨_, .main (.shutDone .clear)⟩)
  | checking =>
    by_cases h : p.serverFd = none
    · exact .inr (.inl ⟨_, .main (.checkNone h)⟩)
    · exact .inr (.inl ⟨_, .main (.checkSome h)⟩)
  | closing => exact .inr (.inl ⟨_, .main .closeServer⟩)
  | joining k =>
    cases hk : p.workerThreads[k]? with
    | none =>
      -- all threads are joined
      have hlen : p.workerThreads.length = k :=
        le_antisymm (List.getElem?_eq_none_iff.mp hk) hjoined.1
      exact .inr (.inl ⟨_, .main (.joined hlen)⟩)
    | some w =>
      by_cases hw : w = .done
      · exact .inr (.inl ⟨_, .main (.join (hw ▸ hk))⟩)
      · exact .inr (.inr ⟨k, w, rfl, hk, hw⟩)

/-- **A shutdown waits for the sessions and for nothing else.** In every run after `running_`
was cleared, the main thread takes a bounded number of steps and at most one more connection
gets a thread; the main thread can go on unless it waits for a thread that is not done; and
when it has ended, all threads are done. -/
theorem shutdown_drains (hrun : Listener.Runs config .start as s) (hstopped : s.Stopped)
    {as' : List Actor} (hrun' : Listener.Runs config s as' s') :
    as'.count .main ≤ s.process.workerThreads.length + 16 ∧
      s'.process.workerThreads.length ≤ s.process.workerThreads.length + 1 ∧
      (s'.main = .ended ∨ (∃ s'', Listener.Step config s' .main s'') ∨
        ∃ k w, s'.main = .joining k ∧ s'.process.workerThreads[k]? = some w ∧ w ≠ .done) ∧
      (s'.main = .ended → ∀ w ∈ s'.process.workerThreads, w = .done) := by
  obtain ⟨-, hrank, hpending⟩ := hstopped.run hrun'
  have hjoined := joined_of_run (hrun.append hrun')
  have hbound := s.main.rank_le s.process.workerThreads.length
  have hone := s.main.pending_le
  refine ⟨by omega, by omega, exists_step_or_joining hjoined, fun hended w hw => ?_⟩
  obtain ⟨k, hk, rfl⟩ := List.getElem_of_mem hw
  have hdone := hjoined.2 k (by rw [hended]; exact hk)
  exact Option.some.inj ((List.getElem?_eq_getElem hk).symm.trans hdone)

/-- One session and a signal: the main thread has at most 17 steps left. -/
theorem shutdown_drains_one : ∃ as s, Listener.Runs {} .start as s ∧ s.Stopped ∧
    ∀ as' s', Listener.Runs {} s as' s' → as'.count .main ≤ 17 := by
  obtain ⟨as, ⟨main, p, hs⟩, -, hrun, htaken⟩ := exists_taken {} 1
  obtain ⟨ep, rfl⟩ := htaken.loop
  have hsignal := (hrun.snoc (.signal nofun nofun)).snoc (.handler .stop)
  refine ⟨_, _, hsignal, ⟨rfl, nofun⟩, fun as' s' hrun' => ?_⟩
  have hmain := (shutdown_drains hsignal ⟨rfl, nofun⟩ hrun').1
  exact hmain.trans (congrArg (· + 16) htaken.workers).le

end Drain

/-! ### Descriptors -/

/-- The descriptors the main thread has for itself. -/
def MainPc.fds : MainPc → List Fd
  | .adding ep => [ep]
  | .loop ep => [ep]
  | .waiting ep => [ep]
  | .woken ep _ => [ep]
  | .accepting ep => [ep]
  | .accepted ep client => [client, ep]
  | .counting ep client => [client, ep]
  | .spawning ep client => [client, ep]
  | .leaving ep => [ep]
  | _ => []

/-- The descriptors of the connections. -/
def sessionFds (workers : List Worker) : Multiset Fd := (workers.flatMap Worker.fds : List Fd)

/-- The descriptors that are somebody's, other than that of the listening socket. -/
def ownedFds (pc : MainPc) (p : Process) : Multiset Fd :=
  sessionFds p.workerThreads + ((pc.fds : Multiset Fd) + (p.lost : Multiset Fd))

/-- The call is between its test of `server_fd_` and its assignment. -/
def ShutdownPc.Inside (q : ShutdownPc) : Prop := q = .close ∨ q = .clear

instance : DecidablePred ShutdownPc.Inside := fun _ => inferInstanceAs (Decidable (_ ∨ _))

/-- The call that the main thread is in. -/
def MainPc.call : MainPc → Multiset ShutdownPc
  | .shutting q => {q}
  | _ => 0

/-- The calls of `shutdown` that are going on. -/
def Listener.calls (s : Listener) : Multiset ShutdownPc := s.main.call + s.handlers

/-- At most one call is between its test of `server_fd_` and its assignment. -/
def Listener.Orderly (s : Listener) : Prop := s.calls.countP ShutdownPc.Inside ≤ 1

/-- No two sessions share a descriptor, and what a session has open is open. -/
def Listener.Kept (s : Listener) : Prop :=
  (sessionFds s.process.workerThreads).Nodup ∧
    ∀ fd ∈ sessionFds s.process.workerThreads, fd ∈ s.process.openFds

/-- What a step does to the descriptors that are owned and to those that are open, when it is
not one on the listening socket. -/
inductive FdEffect : Multiset Fd × Finset Fd → Multiset Fd × Finset Fd → Prop
  | none (x : Multiset Fd × Finset Fd) : FdEffect x x
  | gain {owned : Multiset Fd} {fds : Finset Fd} (fd : Fd) (h : fd ∉ fds) :
      FdEffect (owned, fds) (fd ::ₘ owned, insert fd fds)
  | drop {owned : Multiset Fd} {fds : Finset Fd} (fd : Fd) :
      FdEffect (fd ::ₘ owned, fds) (owned, fds.erase fd)
  /-- The epoll descriptor, when an exception leaves the loop. -/
  | leak {owned : Multiset Fd} {fds : Finset Fd} (fd : Fd) :
      FdEffect (fd ::ₘ owned, fds) (owned, fds)

section Descriptors

variable {config : ServerConfig} {pc pc' : MainPc} {p p' : Process} {s s' : Listener}
  {as : List Actor} {a : Actor} {hs : Multiset ShutdownPc}

/-- One thread is in another place, and the others have the descriptors that they had. -/
theorem exists_others {workers : List Worker} {k : ℕ} {w : Worker} (hk : workers[k]? = some w) :
    ∃ others : Multiset Fd, sessionFds workers = (w.fds : Multiset Fd) + others ∧
      ∀ w' : Worker, sessionFds (workers.set k w') = (w'.fds : Multiset Fd) + others := by
  obtain ⟨hlt, rfl⟩ := List.getElem?_eq_some_iff.mp hk
  refine ⟨sessionFds (workers.eraseIdx k), ?_, fun w' => ?_⟩
  · have hperm := (List.getElem_cons_eraseIdx_perm hlt).symm.flatMap_right Worker.fds
    exact Multiset.coe_eq_coe.mpr hperm
  · have hperm := (List.set_perm_cons_eraseIdx hlt w').flatMap_right Worker.fds
    exact Multiset.coe_eq_coe.mpr hperm

/-- What a thread of a connection does with descriptors. -/
theorem WorkerStep.fdEffect {k : ℕ} {w w' : Worker} (h : WorkerStep w p w' p')
    (hk : p.workerThreads[k]? = some w) (rest : Multiset Fd) :
    FdEffect (sessionFds p.workerThreads + rest, p.openFds)
      (sessionFds (p.workerThreads.set k w') + rest, p'.openFds) := by
  obtain ⟨others, hold, hnew⟩ := exists_others hk
  rw [hold, hnew, Multiset.add_assoc, Multiset.add_assoc]
  cases h with
  | openFile fd hfree =>
    simp only [Worker.fds, ← Multiset.cons_coe, Multiset.cons_add]
    rw [Multiset.cons_swap]
    exact .gain fd hfree
  | closeFile =>
    simp only [Worker.fds, ← Multiset.cons_coe, Multiset.cons_add]
    rw [Multiset.cons_swap]
    exact .drop _
  | leave => exact .none _
  | count => exact .none _
  | close =>
    simp only [Worker.fds, ← Multiset.cons_coe, Multiset.cons_add, Multiset.coe_nil,
      Multiset.zero_add]
    exact .drop _

theorem owned_cons (workers : Multiset Fd) (fd : Fd) (fds : List Fd) (lost : Multiset Fd) :
    workers + (((fd :: fds : List Fd) : Multiset Fd) + lost) =
      fd ::ₘ (workers + ((fds : Multiset Fd) + lost)) := by
  rw [← Multiset.cons_coe, Multiset.cons_add, Multiset.add_cons]

/-- A step of the main thread is one of `shutdown`, one on the listening socket, or one of
those on the other descriptors. -/
theorem MainStep.fdEffect (h : MainStep config pc p pc' p') :
    (∃ q q', pc = .shutting q ∧ ShutdownStep q p q' p' ∧
        pc' = q'.elim .checking .shutting) ∨
      (pc = .opening ∧ ∃ fd ∉ p.openFds, pc' = .binding ∧
        p' = { p with serverFd := some fd, openFds := insert fd p.openFds }) ∨
      (pc = .closing ∧ pc' = .joining 0 ∧ p' = p.close p.serverFd) ∨
      (pc.call = 0 ∧ (pc' = .checking ∨ pc' = .closing → pc = .checking) ∧
        p'.serverFd = p.serverFd ∧
        FdEffect (ownedFds pc p, p.openFds) (ownedFds pc' p', p'.openFds)) := by
  cases h with
  | shut hshut => exact .inl ⟨_, _, rfl, hshut, rfl⟩
  | shutDone hshut => exact .inl ⟨_, _, rfl, hshut, rfl⟩
  | socket fd hfree => exact .inr (.inl ⟨rfl, fd, hfree, rfl, rfl⟩)
  | closeServer => exact .inr (.inr (.inl ⟨rfl, rfl, rfl⟩))
  | poll ep hfree =>
    refine .inr (.inr (.inr ⟨rfl, nofun, rfl, ?_⟩))
    simp only [ownedFds, MainPc.fds, owned_cons]
    exact .gain ep hfree
  | accept client _ _ hfree =>
    refine .inr (.inr (.inr ⟨rfl, nofun, rfl, ?_⟩))
    simp only [ownedFds, MainPc.fds, owned_cons]
    exact .gain client hfree
  | @spawn _ ep client =>
    refine .inr (.inr (.inr ⟨rfl, nofun, rfl, ?_⟩))
    -- the socket goes over to the thread
    have hsession : sessionFds (p.workerThreads ++ [.serving client []]) =
        client ::ₘ sessionFds p.workerThreads := by
      unfold sessionFds
      rw [List.flatMap_append, ← Multiset.coe_add, Multiset.add_comm]
      rfl
    simp only [ownedFds, MainPc.fds, owned_cons, hsession, Multiset.cons_add]
    rw [Multiset.cons_swap]
    exact .none _
  | @spawnFails _ ep client =>
    refine .inr (.inr (.inr ⟨rfl, nofun, rfl, ?_⟩))
    have hlost : ((client :: p.lost : List Fd) : Multiset Fd) = client ::ₘ p.lost := rfl
    simp only [ownedFds, MainPc.fds, owned_cons, hlost, Multiset.add_cons]
    rw [Multiset.cons_swap]
    exact .leak ep
  | closeEpoll =>
    refine .inr (.inr (.inr ⟨rfl, nofun, rfl, ?_⟩))
    simp only [ownedFds, MainPc.fds, owned_cons]
    exact .drop _
  | checkSome => exact .inr (.inr (.inr ⟨rfl, fun _ => rfl, rfl, .none _⟩))
  | _ => exact .inr (.inr (.inr ⟨rfl, nofun, rfl, .none _⟩))

/-! ### Which descriptors are kept -/

/-- Who has which descriptor, as long as calls of `shutdown` do not overlap. -/
structure Apart (s : Listener) : Prop where
  nodup : (ownedFds s.main s.process).Nodup
  isOpen : ∀ fd ∈ ownedFds s.main s.process, fd ∈ s.process.openFds
  /-- The listening socket is nobody else's, until a call has closed it. -/
  server : .clear ∉ s.calls → ∀ fd, s.process.serverFd = some fd →
    fd ∈ s.process.openFds ∧ fd ∉ ownedFds s.main s.process
  /-- The destructor's own call has reset `server_fd_`. -/
  reset : s.main = .checking ∨ s.main = .closing → s.process.serverFd = none

theorem FdEffect.apart {owned owned' : Multiset Fd} {fds fds' : Finset Fd} {server : Option Fd}
    {C : Prop} (h : FdEffect (owned, fds) (owned', fds')) (hnodup : owned.Nodup)
    (hopen : ∀ fd ∈ owned, fd ∈ fds)
    (hserver : C → ∀ fd, server = some fd → fd ∈ fds ∧ fd ∉ owned) :
    owned'.Nodup ∧ (∀ fd ∈ owned', fd ∈ fds') ∧
      (C → ∀ fd, server = some fd → fd ∈ fds' ∧ fd ∉ owned') := by
  cases h with
  | none => exact ⟨hnodup, hopen, hserver⟩
  | gain x hfree =>
    refine ⟨Multiset.nodup_cons.mpr ⟨fun hx => hfree (hopen x hx), hnodup⟩, fun fd hfd => ?_,
      fun hC fd hfd => ?_⟩
    · obtain rfl | hfd := Multiset.mem_cons.mp hfd
      · exact Finset.mem_insert_self _ _
      · exact Finset.mem_insert_of_mem (hopen fd hfd)
    · obtain ⟨hmem, hnot⟩ := hserver hC fd hfd
      refine ⟨Finset.mem_insert_of_mem hmem, fun hc => ?_⟩
      obtain rfl | hc := Multiset.mem_cons.mp hc
      · exact hfree hmem
      · exact hnot hc
  | drop x =>
    obtain ⟨hx, hnodup⟩ := Multiset.nodup_cons.mp hnodup
    refine ⟨hnodup, fun fd hfd => ?_, fun hC fd hfd => ?_⟩
    · refine Finset.mem_erase_of_ne_of_mem ?_ (hopen fd (Multiset.mem_cons_of_mem hfd))
      rintro rfl
      exact hx hfd
    · obtain ⟨hmem, hnot⟩ := hserver hC fd hfd
      refine ⟨Finset.mem_erase_of_ne_of_mem ?_ hmem, fun hc => hnot (Multiset.mem_cons_of_mem hc)⟩
      rintro rfl
      exact hnot (Multiset.mem_cons_self _ _)
  | leak x =>
    refine ⟨(Multiset.nodup_cons.mp hnodup).2,
      fun fd hfd => hopen fd (Multiset.mem_cons_of_mem hfd), fun hC fd hfd => ?_⟩
    obtain ⟨hmem, hnot⟩ := hserver hC fd hfd
    exact ⟨hmem, fun hc => hnot (Multiset.mem_cons_of_mem hc)⟩

theorem apart_start : Apart .start where
  nodup := by simp [ownedFds, sessionFds, Listener.start, Process.start, MainPc.fds]
  isOpen := by simp [ownedFds, sessionFds, Listener.start, Process.start, MainPc.fds]
  server _ fd hfd := absurd hfd (by simp [Listener.start, Process.start])
  reset h := absurd h (by simp [Listener.start])

/-- A call of `shutdown` that is alone between its test and its assignment closes nothing but
the listening socket. -/
theorem ShutdownStep.apart {q : ShutdownPc} {q' : Option ShutdownPc} {rest : Multiset ShutdownPc}
    {owned : Multiset Fd} (h : ShutdownStep q p q' p')
    (horderly : (q ::ₘ rest).countP ShutdownPc.Inside ≤ 1) (hopen : ∀ fd ∈ owned, fd ∈ p.openFds)
    (hserver : .clear ∉ q ::ₘ rest → ∀ fd, p.serverFd = some fd → fd ∈ p.openFds ∧ fd ∉ owned) :
    (∀ fd ∈ owned, fd ∈ p'.openFds) ∧
      (.clear ∉ q'.elim rest (· ::ₘ rest) → ∀ fd, p'.serverFd = some fd →
        fd ∈ p'.openFds ∧ fd ∉ owned) := by
  cases h with
  | stop => exact ⟨hopen, fun hclear => hserver (by simpa using hclear)⟩
  | testNone => exact ⟨hopen, fun hclear => hserver (by simpa using hclear)⟩
  | testSome => exact ⟨hopen, fun hclear => hserver (by simpa using hclear)⟩
  | close =>
    -- no other call has closed the descriptor
    have hrest : .clear ∉ rest := by
      intro hclear
      have hpos : 0 < rest.countP ShutdownPc.Inside :=
        Multiset.countP_pos.mpr ⟨.clear, hclear, .inr rfl⟩
      rw [Multiset.countP_cons_of_pos rest (.inl rfl)] at horderly
      omega
    refine ⟨fun fd hfd => ?_, fun hclear => absurd (Multiset.mem_cons_self _ _) hclear⟩
    refine Process.mem_openFds_close (hopen fd hfd) fun hc => ?_
    exact (hserver (by simpa using hrest) fd hc).2 hfd
  | clear => exact ⟨hopen, fun _ fd hfd => absurd hfd (by simp)⟩

theorem ShutdownStep.serverFd {q : ShutdownPc} {q' : Option ShutdownPc}
    (h : ShutdownStep q p q' p') :
    (q' = none → p'.serverFd = none) ∧ (p.serverFd = none → p'.serverFd = none) := by
  cases h with
  | testNone hnone => exact ⟨fun _ => hnone, id⟩
  | clear => exact ⟨fun _ => rfl, fun _ => rfl⟩
  | close => exact ⟨nofun, fun h => by simpa using h⟩
  | stop | testSome => exact ⟨nofun, id⟩

theorem ShutdownStep.lost {q : ShutdownPc} {q' : Option ShutdownPc}
    (h : ShutdownStep q p q' p') : p'.lost = p.lost := by
  cases h <;> simp

theorem WorkerStep.serverFd {w w' : Worker} (h : WorkerStep w p w' p') :
    p'.serverFd = p.serverFd := by
  cases h <;> simp

/-- The main thread. -/
theorem Apart.main (h : Apart ⟨pc, p, hs⟩) (horderly : Listener.Orderly ⟨pc, p, hs⟩)
    (hstep : MainStep config pc p pc' p') : Apart ⟨pc', p', hs⟩ := by
  obtain ⟨hnodup, hopen, hserver, hreset⟩ := h
  obtain ⟨q, q', rfl, hshut, rfl⟩ | ⟨rfl, fd, hfree, rfl, rfl⟩ | ⟨rfl, rfl, rfl⟩ |
    ⟨hcall, hcheck, hsame, heffect⟩ := hstep.fdEffect
  · -- in the destructor's call of `shutdown` it owns nothing
    have howned : ownedFds (q'.elim .checking .shutting) p' = ownedFds (.shutting q) p := by
      unfold ownedFds
      rw [hshut.workers, hshut.lost]
      cases q' <;> rfl
    obtain ⟨hopen', hserver'⟩ := hshut.apart horderly hopen hserver
    refine ⟨howned ▸ hnodup, howned ▸ hopen', fun hclear => ?_, fun hmain => ?_⟩
    · rw [howned]
      refine hserver' ?_
      cases q' with
      | none => simpa [Listener.calls, MainPc.call] using hclear
      | some q' => simpa [Listener.calls, MainPc.call] using hclear
    · cases q' with
      | none => exact hshut.serverFd.1 rfl
      | some q' => exact absurd hmain (by simp)
  · -- the listening socket is opened
    refine ⟨hnodup, fun fd' hfd' => Finset.mem_insert_of_mem (hopen fd' hfd'),
      fun _ fd' hfd' => ?_, nofun⟩
    obtain rfl := Option.some.inj hfd'
    exact ⟨Finset.mem_insert_self _ _, fun hc => hfree (hopen fd hc)⟩
  · -- the destructor has nothing left to close
    have hnone := hreset (.inr rfl)
    simp only at hnone
    rw [hnone]
    exact ⟨hnodup, hopen, hserver, nofun⟩
  · -- whatever call it enters is at its beginning
    have hcalls : .clear ∉ pc'.call + hs → .clear ∉ pc.call + hs := by
      rw [hcall, Multiset.zero_add]
      exact fun hclear hc => hclear (Multiset.mem_add.mpr (.inr hc))
    obtain ⟨hnodup', hopen', hserver'⟩ := heffect.apart hnodup hopen hserver
    refine ⟨hnodup', hopen', fun hclear fd hfd => ?_, fun hmain => ?_⟩
    · exact hserver' (hcalls hclear) fd (hsame ▸ hfd)
    · exact hsame.trans (hreset (.inl (hcheck hmain)))

theorem Apart.step (h : Apart s) (horderly : s.Orderly) (hstep : Listener.Step config s a s') :
    Apart s' := by
  cases hstep with
  | main hmain => exact h.main horderly hmain
  | @signal pc p hs _ _ =>
    refine ⟨h.nodup, h.isOpen, fun hclear => h.server fun hc => hclear ?_, h.reset⟩
    -- a call that is just entered is not between its test and its assignment
    show ShutdownPc.clear ∈ pc.call + .stop ::ₘ hs
    rw [Multiset.add_cons]
    exact Multiset.mem_cons_of_mem hc
  | @handler pc p p' hs q q' hshut =>
    have howned : ownedFds pc p' = ownedFds pc p := by
      unfold ownedFds
      rw [hshut.workers, hshut.lost]
    -- the handler's call is one of those under way
    have hcalls : Listener.calls ⟨pc, p, q ::ₘ hs⟩ = q ::ₘ (pc.call + hs) :=
      Multiset.add_cons q pc.call hs
    have hcalls' : Listener.calls ⟨pc, p', q'.elim hs (· ::ₘ hs)⟩ =
        q'.elim (pc.call + hs) (· ::ₘ (pc.call + hs)) := by
      cases q' with
      | none => rfl
      | some q' => exact Multiset.add_cons q' pc.call hs
    obtain ⟨hopen', hserver'⟩ := hshut.apart (hcalls ▸ horderly) h.isOpen
      (hcalls ▸ h.server)
    refine ⟨?_, ?_, ?_, fun hmain => hshut.serverFd.2 (h.reset hmain)⟩
    · show (ownedFds pc p').Nodup
      exact howned ▸ h.nodup
    · show ∀ fd ∈ ownedFds pc p', _
      exact howned ▸ hopen'
    · rw [hcalls']
      show _ → ∀ fd, _ → _ ∧ fd ∉ ownedFds pc p'
      exact howned ▸ hserver'
  | @worker pc p p' hs k w w' hk hworker =>
    obtain ⟨htotal, hlost, -⟩ := hworker.counters
    -- what the main thread owns and what is lost stay as they are beside the sessions'
    have heffect := hworker.fdEffect hk ((pc.fds : Multiset Fd) + (p.lost : Multiset Fd))
    obtain ⟨hnodup', hopen', hserver'⟩ := heffect.apart h.nodup h.isOpen h.server
    have howned : ownedFds pc { p' with workerThreads := p.workerThreads.set k w' } =
        sessionFds (p.workerThreads.set k w') + ((pc.fds : Multiset Fd) + p.lost) := by
      rw [← hlost]
      rfl
    refine ⟨?_, ?_, fun hclear fd hfd => ?_, fun hmain => ?_⟩
    · show (ownedFds pc _).Nodup
      exact howned ▸ hnodup'
    · show ∀ fd ∈ ownedFds pc _, _
      exact howned ▸ hopen'
    · show _ ∧ fd ∉ ownedFds pc _
      rw [howned]
      exact hserver' hclear fd (hworker.serverFd ▸ hfd)
    · exact hworker.serverFd.trans (h.reset hmain)

theorem Apart.kept (h : Apart s) : s.Kept := by
  obtain ⟨hnodup, hopen, -, -⟩ := h
  refine ⟨(Multiset.nodup_add.mp hnodup).1, fun fd hfd => hopen fd ?_⟩
  exact Multiset.mem_add.mpr (.inl hfd)

/-- Along a run in which calls of `shutdown` do not overlap. -/
theorem apart_of_run
    (h : Run (fun s a s' => Listener.Step config s a s' ∧ s.Orderly) .start as s) : Apart s := by
  induction h with
  | nil => exact apart_start
  | snoc _ hlast ih => exact ih.step hlast.2 hlast.1

/-- A single call of `shutdown` overlaps with none. -/
theorem orderly_of_card (h : s.calls.card ≤ 1) : s.Orderly :=
  (Multiset.countP_le_card _ _).trans h

theorem card_call_le (pc : MainPc) : pc.call.card ≤ 1 := by
  cases pc <;> simp [MainPc.call]

/-- Before the first signal only the main thread calls `shutdown`. -/
theorem orderly_of_no_signal (h : Listener.Runs config .start as s) (hquiet : .signal ∉ as) :
    Run (fun s a s' => Listener.Step config s a s' ∧ s.Orderly) .start as s ∧ s.handlers = 0 := by
  induction h with
  | nil => exact ⟨.nil, rfl⟩
  | @snoc as s s' a _ hlast ih =>
    obtain ⟨hbefore, hnot⟩ := not_or.mp (mt List.mem_append.mpr hquiet)
    obtain ⟨hrun, hnone⟩ := ih hbefore
    refine ⟨hrun.snoc ⟨hlast, orderly_of_card ?_⟩, ?_⟩
    · rw [Listener.calls, hnone, Multiset.card_add, Multiset.card_zero]
      exact card_call_le s.main
    · cases hlast with
      | main | worker => exact hnone
      | signal => exact absurd (List.mem_singleton_self _) hnot
      | handler => exact absurd hnone (Multiset.cons_ne_zero)

/-- A signal's call of `shutdown` has seen `server_fd_`. -/
theorem exists_at_close (config : ServerConfig) (hs : Multiset ShutdownPc) (hboot : pc ≠ .boot)
    (hended : pc ≠ .ended) (hserver : p.serverFd ≠ none) :
    Listener.Runs config ⟨pc, p, hs⟩ [.signal, .handler, .handler]
      ⟨pc, { p with running := false }, .close ::ₘ hs⟩ := by
  have htest : ShutdownStep .test { p with running := false } (some .close)
      { p with running := false } := .testSome hserver
  exact ((Run.single (.signal hboot hended)).snoc (.handler .stop)).snoc (.handler htest)

/-- Two calls have seen `server_fd_` before either closes it. Between the two calls of
`close_socket` a session opens a file, and gets the number that has become free. -/
theorem exists_overlap {fd socket : Fd} {files : List Fd} {k : ℕ} (hboot : pc ≠ .boot)
    (hended : pc ≠ .ended) (hserver : p.serverFd = some fd)
    (hk : p.workerThreads[k]? = some (.serving socket files)) :
    ∃ as s', Listener.Runs config ⟨pc, p, hs⟩ as s' ∧ as.count .signal = 2 ∧ ¬ s'.Kept := by
  have hsome : p.serverFd ≠ none := by
    rw [hserver]
    exact Option.some_ne_none fd
  have hboth := (exists_at_close config hs hboot hended hsome).append
    (exists_at_close config _ hboot hended hsome)
  -- the first of them closes the socket
  have hclose := hboth.snoc (.handler .close)
  simp only [hserver, Option.elim_some] at hclose
  rw [Multiset.cons_swap] at hclose
  -- a session opens a file
  have hfree : fd ∉ (Process.close { p with running := false } (some fd)).openFds :=
    Finset.notMem_erase fd p.openFds
  have hopen := hclose.snoc (.worker hk (.openFile fd hfree))
  -- the second closes what is the file's now
  have hagain := hopen.snoc (.handler .close)
  refine ⟨_, _, hagain, rfl, fun hkept => ?_⟩
  have hlt := (List.getElem?_eq_some_iff.mp hk).1
  have hmem : fd ∈ sessionFds (p.workerThreads.set k (.serving socket (fd :: files))) := by
    refine Multiset.mem_coe.mpr (List.mem_flatMap.mpr ⟨_, List.mem_set hlt _, ?_⟩)
    exact List.mem_cons_of_mem _ List.mem_cons_self
  have hkept := hkept.2 fd hmem
  simp [Process.close] at hkept

/-- **Which descriptors the sessions keep.** In every run in which at most one call of
`shutdown` at a time is between its test of `server_fd_` and its assignment, each session has
its own descriptors, and they stay open. From any state with a listening socket and a session,
two signals are enough to lose one. -/
theorem session_fds_kept (config : ServerConfig) :
    (∀ as s, Run (fun s a s' => Listener.Step config s a s' ∧ s.Orderly) .start as s → s.Kept) ∧
      ∀ (s : Listener) (fd socket : Fd) (files : List Fd) (k : ℕ), s.main ≠ .boot →
        s.main ≠ .ended → s.process.serverFd = some fd →
        s.process.workerThreads[k]? = some (.serving socket files) →
        ∃ as s', Listener.Runs config s as s' ∧ as.count .signal = 2 ∧ ¬ s'.Kept := by
  refine ⟨fun as s h => (apart_of_run h).kept, ?_⟩
  rintro ⟨pc, p, hs⟩ fd socket files k hboot hended hserver hk
  exact exists_overlap hboot hended hserver hk

/-- A step of the only call of `shutdown`. -/
theorem step_of_only {q q' : ShutdownPc} (h : ShutdownStep q p (some q') p') :
    Listener.Step config ⟨pc, p, {q}⟩ .handler ⟨pc, p', {q'}⟩ := .handler h

/-- A session, and a signal whose call of `shutdown` runs to its end. -/
theorem exists_orderly_shutdown : ∃ as s,
    Run (fun s a s' => Listener.Step {} s a s' ∧ s.Orderly) .start as s ∧ as.count .signal = 1 ∧
      s.process.serverFd = none ∧ s.process.workerThreads.length = 1 := by
  obtain ⟨as, ⟨main, p, hs⟩, hquiet, hrun, htaken⟩ := exists_taken {} 1
  obtain ⟨ep, rfl⟩ := htaken.loop
  obtain ⟨fd, hserver, -, -⟩ := htaken.listening
  obtain ⟨horderly, rfl⟩ := orderly_of_no_signal hrun hquiet
  have hsome : p.serverFd ≠ none := fun hc => absurd (hserver.symm.trans hc) (by simp)
  have htest : ShutdownStep .test { p with running := false } (some .close)
      { p with running := false } := .testSome hsome
  -- there is never more than the one call
  have hone : ∀ (p : Process) (q : ShutdownPc), Listener.Orderly ⟨.loop ep, p, {q}⟩ :=
    fun p q => orderly_of_card (by simp [Listener.calls, MainPc.call])
  have hnone : Listener.Orderly ⟨.loop ep, p, 0⟩ :=
    orderly_of_card (by simp [Listener.calls, MainPc.call])
  have hstopped := ((horderly.snoc ⟨.signal nofun nofun, hnone⟩).snoc
    ⟨step_of_only .stop, hone _ _⟩).snoc ⟨step_of_only htest, hone _ _⟩
  have hended := (hstopped.snoc ⟨step_of_only .close, hone _ _⟩).snoc
    ⟨.handler .clear, hone _ _⟩
  refine ⟨_, _, hended, ?_, rfl, ?_⟩
  · simp [List.count_eq_zero_of_not_mem hquiet]
  · rw [Process.close_workerThreads]
    exact htaken.workers

/-- One session: it keeps its descriptors over one signal, and can lose them over two. -/
theorem session_fds_kept_one :
    (∃ as s, Run (fun s a s' => Listener.Step {} s a s' ∧ s.Orderly) .start as s ∧
      as.count .signal = 1 ∧ s.process.serverFd = none ∧ s.process.workerThreads.length = 1 ∧
      s.Kept) ∧
    ∃ as s, Listener.Runs {} .start as s ∧ ¬ s.Kept := by
  constructor
  · obtain ⟨as, s, hrun, hsignal, hserver, hworkers⟩ := exists_orderly_shutdown
    exact ⟨as, s, hrun, hsignal, hserver, hworkers, (session_fds_kept {}).1 as s hrun⟩
  · obtain ⟨as, s, -, hrun, htaken⟩ := exists_taken {} 1
    obtain ⟨ep, hmain⟩ := htaken.loop
    obtain ⟨fd, hserver, -, -⟩ := htaken.listening
    have hlt : 0 < s.process.workerThreads.length := by rw [htaken.workers]; exact Nat.one_pos
    obtain ⟨socket, hw⟩ := htaken.serving _ (List.getElem_mem hlt)
    have hk := (List.getElem?_eq_getElem hlt).trans (congrArg some hw)
    obtain ⟨as', s', hrun', -, hlost⟩ := (session_fds_kept {}).2 s fd socket [] 0
      (by rw [hmain]; exact nofun) (by rw [hmain]; exact nofun) hserver hk
    exact ⟨_, s', hrun.append hrun', hlost⟩

end Descriptors

end AdaptiveSync
