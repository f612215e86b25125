import Mathlib.Data.Fintype.EquivFin
import AdaptiveSync.Lib.Loan
import AdaptiveSync.Server.CommandLine

/-!
# The server process

`AdaptiveSyncServer` (`server/src/server.cpp`) as its threads take turns, on Linux. The main
thread goes through `run`, the loop of `run_epoll` and the destructor; each connection has a
thread in `handle_client`; and a signal makes some thread call `shutdown` between any two of
its steps, also while another call of `shutdown` is going on. A step is one access to what
the threads share: an atomic, `server_fd_`, the vector of threads, or the kernel's table of
descriptors (`Listener.Step`).

The kernel answers a call as it likes where it may: a call that can fail can fail here, a new
descriptor is any that is not open, and `epoll_wait` may return for no reason. A client can be
accepted only on the listening socket. Sessions open and close files while they serve.

Not modelled are an exception that leaves a session, which ends the process and with it the
run, and signals before the handlers are installed or after the last thread was joined.
Loads and stores of `server_fd_`, a plain `int`, are taken to be indivisible and in order.

The counters are those of the threads whenever no connection is between its counting and the
start of its thread (`counters_agree`), and `max_connections` bounds nothing but the queue of
the listening socket (`any_number_of_sessions`).
-/

namespace AdaptiveSync

open Loan (Run)

/-! ### The process -/

/-- A descriptor. -/
abbrev Fd := ℕ

/-- Where a call of `shutdown` is: before `running_ = false`, before the test of `server_fd_`,
before `close_socket`, and before the assignment. -/
inductive ShutdownPc where
  | stop | test | close | clear
  deriving DecidableEq

/-- Where the thread of a connection is. -/
inductive Worker where
  /-- In `Session::run`, with the files that are open. -/
  | serving (socket : Fd) (files : List Fd)
  /-- Before `active_connections_--`. -/
  | returned (socket : Fd)
  /-- Before the destructor of the session. -/
  | counted (socket : Fd)
  | done
  deriving DecidableEq

/-- The descriptors that a connection has open. -/
def Worker.fds : Worker → List Fd
  | .serving socket files => socket :: files
  | .returned socket => [socket]
  | .counted socket => [socket]
  | .done => []

/-- The connection is counted as active. -/
def Worker.active : Worker → Bool
  | .serving _ _ => true
  | .returned _ => true
  | _ => false

/-- Where the main thread is. -/
inductive MainPc where
  /-- Before `running_ = true` and `init_storage`. -/
  | boot
  /-- Before `socket`. -/
  | opening
  /-- Before `bind` and `listen`. -/
  | binding
  /-- Before `epoll_create1`. -/
  | polling
  /-- Before `epoll_ctl`. -/
  | adding (ep : Fd)
  /-- Before the test of `running_`. -/
  | loop (ep : Fd)
  /-- In `epoll_wait`. -/
  | waiting (ep : Fd)
  /-- With an event on a descriptor. -/
  | woken (ep fd : Fd)
  /-- Before `accept`. -/
  | accepting (ep : Fd)
  /-- Before `total_connections_++`. -/
  | accepted (ep client : Fd)
  /-- Before `active_connections_++`. -/
  | counting (ep client : Fd)
  /-- Before `worker_threads_.emplace_back`. -/
  | spawning (ep client : Fd)
  /-- Before the epoll descriptor is closed. -/
  | leaving (ep : Fd)
  /-- In the destructor's call of `shutdown`. -/
  | shutting (pc : ShutdownPc)
  /-- Before the destructor's own test of `server_fd_`. -/
  | checking
  /-- Before the destructor's own `close_socket`. -/
  | closing
  /-- Waiting for the thread with this number. -/
  | joining (k : ℕ)
  /-- All threads are joined. -/
  | ended
  deriving DecidableEq

/-- What the threads share, and the kernel's side of it. -/
structure Process where
  running : Bool
  serverFd : Option Fd
  totalConnections : UInt64
  activeConnections : UInt64
  workerThreads : List Worker
  /-- The descriptors that are open. -/
  openFds : Finset Fd
  /-- The descriptor of the listening socket, while it is open. -/
  listening : Option Fd
  /-- How many connections may wait to be accepted. -/
  backlog : UInt32
  /-- The descriptor that `epoll_wait` watches. -/
  watched : Option Fd
  /-- Accepted sockets for which no thread could be started. -/
  lost : List Fd

/-- The process, and the calls of `shutdown` that signals have made. -/
structure Listener where
  main : MainPc
  process : Process
  handlers : Multiset ShutdownPc

namespace Process

/-- The constructor has run. -/
def start : Process := ⟨false, none, 0, 0, [], ∅, none, 0, none, []⟩

/-- `close`. A descriptor that is not open is refused. -/
def close (p : Process) (fd : Option Fd) : Process :=
  match fd with
  | none => p
  | some fd => { p with
      openFds := p.openFds.erase fd
      listening := if p.listening = some fd then none else p.listening }

section Close

variable (p : Process) (fd : Option Fd)

@[simp] theorem close_running : (p.close fd).running = p.running := by cases fd <;> rfl

@[simp] theorem close_serverFd : (p.close fd).serverFd = p.serverFd := by cases fd <;> rfl

@[simp] theorem close_total : (p.close fd).totalConnections = p.totalConnections := by
  cases fd <;> rfl

@[simp] theorem close_active : (p.close fd).activeConnections = p.activeConnections := by
  cases fd <;> rfl

@[simp] theorem close_workerThreads : (p.close fd).workerThreads = p.workerThreads := by
  cases fd <;> rfl

@[simp] theorem close_lost : (p.close fd).lost = p.lost := by cases fd <;> rfl

/-- What was open and is another descriptor stays open. -/
theorem mem_openFds_close {p : Process} {fd : Option Fd} {x : Fd} (h : x ∈ p.openFds)
    (hne : fd ≠ some x) : x ∈ (p.close fd).openFds := by
  cases fd with
  | none => exact h
  | some fd => exact Finset.mem_erase_of_ne_of_mem (fun hc => hne (by rw [hc])) h

end Close

end Process

/-- Nothing has happened yet. -/
def Listener.start : Listener := ⟨.boot, .start, 0⟩

/-! ### Steps -/

/-- A step of `shutdown`: none is left of the call when it returns. -/
inductive ShutdownStep : ShutdownPc → Process → Option ShutdownPc → Process → Prop
  | stop {p : Process} : ShutdownStep .stop p (some .test) { p with running := false }
  | testNone {p : Process} (h : p.serverFd = none) : ShutdownStep .test p none p
  | testSome {p : Process} (h : p.serverFd ≠ none) : ShutdownStep .test p (some .close) p
  | close {p : Process} : ShutdownStep .close p (some .clear) (p.close p.serverFd)
  | clear {p : Process} : ShutdownStep .clear p none { p with serverFd := none }

/-- A step of `handle_client`. -/
inductive WorkerStep : Worker → Process → Worker → Process → Prop
  | openFile {p : Process} {socket : Fd} {files : List Fd} (fd : Fd) (h : fd ∉ p.openFds) :
      WorkerStep (.serving socket files) p (.serving socket (fd :: files))
        { p with openFds := insert fd p.openFds }
  | closeFile {p : Process} {socket fd : Fd} {files : List Fd} :
      WorkerStep (.serving socket (fd :: files)) p (.serving socket files) (p.close (some fd))
  | leave {p : Process} {socket : Fd} : WorkerStep (.serving socket []) p (.returned socket) p
  | count {p : Process} {socket : Fd} : WorkerStep (.returned socket) p (.counted socket)
      { p with activeConnections := p.activeConnections - 1 }
  | close {p : Process} {socket : Fd} :
      WorkerStep (.counted socket) p .done (p.close (some socket))

/-- A step of the main thread. -/
inductive MainStep (config : ServerConfig) : MainPc → Process → MainPc → Process → Prop
  /-- `create_directories` throws, and `main` unwinds the server. -/
  | storageFails {p : Process} :
      MainStep config .boot p (.shutting .stop) { p with running := true }
  | storage {p : Process} : MainStep config .boot p .opening { p with running := true }
  | socketFails {p : Process} : MainStep config .opening p (.shutting .stop) p
  | socket {p : Process} (fd : Fd) (h : fd ∉ p.openFds) :
      MainStep config .opening p .binding
        { p with serverFd := some fd, openFds := insert fd p.openFds }
  | listenFails {p : Process} : MainStep config .binding p (.shutting .stop) p
  | listen {p : Process} {fd : Fd} (h : p.serverFd = some fd) (hopen : fd ∈ p.openFds) :
      MainStep config .binding p .polling
        { p with listening := some fd, backlog := config.maxConnections }
  | pollFails {p : Process} : MainStep config .polling p (.shutting .stop) p
  | poll {p : Process} (ep : Fd) (h : ep ∉ p.openFds) :
      MainStep config .polling p (.adding ep) { p with openFds := insert ep p.openFds }
  /-- The result of `epoll_ctl` is not looked at. -/
  | addFails {p : Process} {ep : Fd} : MainStep config (.adding ep) p (.loop ep) p
  | add {p : Process} {ep : Fd} (h : p.serverFd = p.listening) :
      MainStep config (.adding ep) p (.loop ep) { p with watched := p.serverFd }
  | stay {p : Process} {ep : Fd} (h : p.running = true) :
      MainStep config (.loop ep) p (.waiting ep) p
  | leave {p : Process} {ep : Fd} (h : p.running = false) :
      MainStep config (.loop ep) p (.leaving ep) p
  /-- A second has passed, or a signal has come. -/
  | timeout {p : Process} {ep : Fd} : MainStep config (.waiting ep) p (.loop ep) p
  | waitFails {p : Process} {ep : Fd} : MainStep config (.waiting ep) p (.leaving ep) p
  | wake {p : Process} {ep fd : Fd} (h : p.watched = some fd) (hl : p.listening = some fd) :
      MainStep config (.waiting ep) p (.woken ep fd) p
  | stale {p : Process} {ep fd : Fd} (h : p.serverFd ≠ some fd) :
      MainStep config (.woken ep fd) p (.loop ep) p
  | fresh {p : Process} {ep fd : Fd} (h : p.serverFd = some fd) :
      MainStep config (.woken ep fd) p (.accepting ep) p
  | acceptFails {p : Process} {ep : Fd} : MainStep config (.accepting ep) p (.loop ep) p
  | accept {p : Process} {ep fd : Fd} (client : Fd) (h : p.serverFd = some fd)
      (hl : p.listening = some fd) (hc : client ∉ p.openFds) :
      MainStep config (.accepting ep) p (.accepted ep client)
        { p with openFds := insert client p.openFds }
  | countTotal {p : Process} {ep client : Fd} :
      MainStep config (.accepted ep client) p (.counting ep client)
        { p with totalConnections := p.totalConnections + 1 }
  | countActive {p : Process} {ep client : Fd} :
      MainStep config (.counting ep client) p (.spawning ep client)
        { p with activeConnections := p.activeConnections + 1 }
  | spawn {p : Process} {ep client : Fd} :
      MainStep config (.spawning ep client) p (.loop ep)
        { p with workerThreads := p.workerThreads ++ [.serving client []] }
  /-- The constructor of the thread throws, and `main` unwinds the server. -/
  | spawnFails {p : Process} {ep client : Fd} :
      MainStep config (.spawning ep client) p (.shutting .stop)
        { p with lost := client :: p.lost }
  | closeEpoll {p : Process} {ep : Fd} :
      MainStep config (.leaving ep) p (.shutting .stop) (p.close (some ep))
  | shut {p p' : Process} {pc pc' : ShutdownPc} (h : ShutdownStep pc p (some pc') p') :
      MainStep config (.shutting pc) p (.shutting pc') p'
  | shutDone {p p' : Process} {pc : ShutdownPc} (h : ShutdownStep pc p none p') :
      MainStep config (.shutting pc) p .checking p'
  | checkNone {p : Process} (h : p.serverFd = none) : MainStep config .checking p (.joining 0) p
  | checkSome {p : Process} (h : p.serverFd ≠ none) : MainStep config .checking p .closing p
  | closeServer {p : Process} :
      MainStep config .closing p (.joining 0) (p.close p.serverFd)
  | join {p : Process} {k : ℕ} (h : p.workerThreads[k]? = some .done) :
      MainStep config (.joining k) p (.joining (k + 1)) p
  | joined {p : Process} {k : ℕ} (h : p.workerThreads.length = k) :
      MainStep config (.joining k) p .ended p

/-- Whose step it is. -/
inductive Actor where
  | main | signal | handler | worker
  deriving DecidableEq

/-- A step of the process. -/
inductive Listener.Step (config : ServerConfig) : Listener → Actor → Listener → Prop
  | main {pc pc' : MainPc} {p p' : Process} {hs : Multiset ShutdownPc}
      (h : MainStep config pc p pc' p') : Step config ⟨pc, p, hs⟩ .main ⟨pc', p', hs⟩
  /-- A thread enters `signal_handler`. -/
  | signal {pc : MainPc} {p : Process} {hs : Multiset ShutdownPc} (hboot : pc ≠ .boot)
      (hended : pc ≠ .ended) : Step config ⟨pc, p, hs⟩ .signal ⟨pc, p, .stop ::ₘ hs⟩
  | handler {pc : MainPc} {p p' : Process} {hs : Multiset ShutdownPc} {q : ShutdownPc}
      {q' : Option ShutdownPc} (h : ShutdownStep q p q' p') :
      Step config ⟨pc, p, q ::ₘ hs⟩ .handler ⟨pc, p', q'.elim hs (· ::ₘ hs)⟩
  | worker {pc : MainPc} {p p' : Process} {hs : Multiset ShutdownPc} {k : ℕ} {w w' : Worker}
      (hk : p.workerThreads[k]? = some w) (h : WorkerStep w p w' p') :
      Step config ⟨pc, p, hs⟩ .worker
        ⟨pc, { p' with workerThreads := p.workerThreads.set k w' }, hs⟩

/-- A run of the process. -/
abbrev Listener.Runs (config : ServerConfig) : Listener → List Actor → Listener → Prop :=
  Run (Listener.Step config)

/-- What holds at first and is kept by every step holds in every state of a run. -/
theorem Listener.Runs.induction {config : ServerConfig} {s s' : Listener} {as : List Actor}
    {J : Listener → Prop} (h : Runs config s as s') (hJ : J s)
    (hstep : ∀ {s a s'}, Step config s a s' → J s → J s') : J s' := by
  induction h with
  | nil => exact hJ
  | snoc _ hlast ih => exact hstep hlast ih

/-! ### The counters -/

/-- The connections that are counted in total while they have no thread yet. -/
def MainPc.counted : MainPc → ℕ
  | .counting _ _ => 1
  | .spawning _ _ => 1
  | _ => 0

/-- The connections that are counted as active while they have no thread yet. -/
def MainPc.entered : MainPc → ℕ
  | .spawning _ _ => 1
  | _ => 0

/-- The counters count the threads, and what is not a thread yet or cannot become one. -/
structure Counted (pc : MainPc) (p : Process) : Prop where
  total : p.totalConnections =
    UInt64.ofNat (p.workerThreads.length + pc.counted + p.lost.length)
  active : p.activeConnections =
    UInt64.ofNat (p.workerThreads.countP Worker.active + pc.entered + p.lost.length)

section Counters

variable {config : ServerConfig} {pc pc' : MainPc} {p p' : Process} {s s' : Listener}

theorem ofNat_succ_eq (n : ℕ) : UInt64.ofNat n + 1 = UInt64.ofNat (n + 1) :=
  (UInt64.ofNat_add n 1).symm

/-- Nothing that is counted changes. -/
theorem Counted.congr (h : Counted pc p) (hcounted : pc'.counted = pc.counted)
    (hentered : pc'.entered = pc.entered) (htotal : p'.totalConnections = p.totalConnections)
    (hactive : p'.activeConnections = p.activeConnections)
    (hworkers : p'.workerThreads = p.workerThreads) (hlost : p'.lost = p.lost) :
    Counted pc' p' where
  total := by rw [htotal, hworkers, hlost, hcounted, h.total]
  active := by rw [hactive, hworkers, hlost, hentered, h.active]

theorem Counted.shutdown {q : ShutdownPc} {q' : Option ShutdownPc} (h : Counted pc p)
    (hstep : ShutdownStep q p q' p') (hcounted : pc'.counted = pc.counted)
    (hentered : pc'.entered = pc.entered) : Counted pc' p' := by
  apply h.congr hcounted hentered <;> cases hstep <;> simp

theorem Counted.main (h : Counted pc p) (hstep : MainStep config pc p pc' p') :
    Counted pc' p' := by
  have htotal := h.total
  have hactive := h.active
  cases hstep with
  | countTotal =>
    refine ⟨?_, hactive⟩
    show p.totalConnections + 1 = _
    rw [htotal, ofNat_succ_eq]
    exact congrArg UInt64.ofNat (by simp only [MainPc.counted]; omega)
  | countActive =>
    refine ⟨htotal, ?_⟩
    show p.activeConnections + 1 = _
    rw [hactive, ofNat_succ_eq]
    exact congrArg UInt64.ofNat (by simp only [MainPc.entered]; omega)
  | spawn =>
    -- the thread takes over what the main thread stood for
    refine ⟨htotal.trans (congrArg UInt64.ofNat ?_), hactive.trans (congrArg UInt64.ofNat ?_)⟩
    · simp [MainPc.counted]
    · simp [MainPc.entered, Worker.active]
  | spawnFails =>
    refine ⟨htotal.trans (congrArg UInt64.ofNat ?_), hactive.trans (congrArg UInt64.ofNat ?_)⟩
    · simp only [MainPc.counted, List.length_cons]
      omega
    · simp only [MainPc.entered, List.length_cons]
      omega
  | shut hshut => exact h.shutdown hshut rfl rfl
  | shutDone hshut => exact h.shutdown hshut rfl rfl
  | closeServer => exact h.congr rfl rfl (by simp) (by simp) (by simp) (by simp)
  | _ => exact ⟨htotal, hactive⟩

/-- One thread is in another place. -/
theorem countP_active_set {workers : List Worker} {k : ℕ} {w : Worker} (w' : Worker)
    (hk : workers[k]? = some w) :
    (workers.set k w').countP Worker.active + w.active.toNat =
      workers.countP Worker.active + w'.active.toNat := by
  obtain ⟨hlt, hget⟩ := List.getElem?_eq_some_iff.mp hk
  have hcount := List.countP_set (p := Worker.active) (a := w') hlt
  have hpos : w.active = true → 0 < workers.countP Worker.active := fun hw =>
    List.countP_pos_iff.mpr ⟨w, List.mem_of_getElem? hk, hw⟩
  rw [hget] at hcount
  cases hw : w.active <;> cases hw' : w'.active <;> simp_all

/-- A connection leaves the active ones at the step that takes it off the counter. -/
theorem WorkerStep.counters {w w' : Worker} (h : WorkerStep w p w' p') :
    p'.totalConnections = p.totalConnections ∧ p'.lost = p.lost ∧
      (p'.activeConnections = p.activeConnections ∧ w'.active = w.active ∨
        p'.activeConnections = p.activeConnections - 1 ∧ w.active = true ∧ w'.active = false) := by
  cases h with
  | count => exact ⟨rfl, rfl, .inr ⟨rfl, rfl, rfl⟩⟩
  | openFile | closeFile | leave | close => exact ⟨rfl, rfl, .inl ⟨rfl, rfl⟩⟩

theorem Counted.worker {k : ℕ} {w w' : Worker} (h : Counted pc p)
    (hk : p.workerThreads[k]? = some w) (hstep : WorkerStep w p w' p') :
    Counted pc { p' with workerThreads := p.workerThreads.set k w' } := by
  obtain ⟨htotal, hlost, hactive⟩ := hstep.counters
  have hcount := countP_active_set w' hk
  refine ⟨?_, ?_⟩
  · show p'.totalConnections =
      UInt64.ofNat ((p.workerThreads.set k w').length + pc.counted + p'.lost.length)
    rw [htotal, hlost, List.length_set, h.total]
  · show p'.activeConnections =
      UInt64.ofNat ((p.workerThreads.set k w').countP Worker.active + pc.entered + p'.lost.length)
    obtain ⟨hsame, hw⟩ | ⟨hless, hw, hw'⟩ := hactive
    · rw [hw] at hcount
      rw [hsame, hlost, h.active, Nat.add_right_cancel hcount]
    · -- one active connection less
      simp only [hw, hw', Bool.toNat_true, Bool.toNat_false, Nat.add_zero] at hcount
      have hone : p.workerThreads.countP Worker.active + pc.entered + p.lost.length =
          (p.workerThreads.set k w').countP Worker.active + pc.entered + p.lost.length + 1 := by
        omega
      rw [hless, hlost, h.active, hone, ← ofNat_succ_eq, UInt64.add_sub_cancel]

theorem Counted.step (h : Counted s.main s.process) {a : Actor}
    (hstep : Listener.Step config s a s') : Counted s'.main s'.process := by
  cases hstep with
  | main hmain => exact h.main hmain
  | signal => exact h
  | handler hshut => exact h.shutdown hshut rfl rfl
  | worker hk hworker => exact h.worker hk hworker

theorem counted_of_run {as : List Actor} (h : Listener.Runs config .start as s) :
    Counted s.main s.process :=
  h.induction (J := fun s => Counted s.main s.process) ⟨rfl, rfl⟩ fun hstep hJ => hJ.step hstep

end Counters

/-! ### Connections without bound -/

section Unbounded

variable {config : ServerConfig} {p : Process} {ep fd : Fd}

/-- One round of the loop takes in a connection, whatever is connected already, and no signal
comes. -/
theorem exists_round (hs : Multiset ShutdownPc) (hrunning : p.running = true)
    (hserver : p.serverFd = some fd) (hlistening : p.listening = some fd)
    (hwatched : p.watched = some fd) :
    ∃ (as : List Actor) (client : Fd), .signal ∉ as ∧ Listener.Runs config ⟨.loop ep, p, hs⟩ as
      ⟨.loop ep, { p with
        openFds := insert client p.openFds
        totalConnections := p.totalConnections + 1
        activeConnections := p.activeConnections + 1
        workerThreads := p.workerThreads ++ [.serving client []] }, hs⟩ := by
  obtain ⟨client, hclient⟩ := Infinite.exists_notMem_finset p.openFds
  exact ⟨_, client, by decide, ((((((Run.single (.main (.stay hrunning))).snoc
    (.main (.wake hwatched hlistening))).snoc (.main (.fresh hserver))).snoc
    (.main (.accept client hserver hlistening hclient))).snoc (.main .countTotal)).snoc
    (.main .countActive)).snoc (.main .spawn)⟩

/-- The loop waits for connections, and has taken in `n` that are all being served. -/
structure Taken (config : ServerConfig) (n : ℕ) (s : Listener) : Prop where
  loop : ∃ ep, s.main = .loop ep
  running : s.process.running = true
  listening : ∃ fd, s.process.serverFd = some fd ∧ s.process.listening = some fd ∧
    s.process.watched = some fd
  backlog : s.process.backlog = config.maxConnections
  workers : s.process.workerThreads.length = n
  lost : s.process.lost = []
  serving : ∀ w ∈ s.process.workerThreads, ∃ socket, w = .serving socket []

/-- The server starts. -/
theorem exists_taken_zero (config : ServerConfig) :
    ∃ as s, .signal ∉ as ∧ Listener.Runs config .start as s ∧ Taken config 0 s := by
  have hep : (1 : Fd) ∉ insert 0 Process.start.openFds := by decide
  refine ⟨_, _, by decide, ((((Run.single (.main .storage)).snoc
    (.main (.socket 0 (Finset.notMem_empty 0)))).snoc
    (.main (.listen rfl (Finset.mem_insert_self 0 ∅)))).snoc (.main (.poll 1 hep))).snoc
    (.main (.add rfl)), ?_⟩
  exact ⟨⟨1, rfl⟩, rfl, ⟨0, rfl, rfl, rfl⟩, rfl, rfl, rfl, fun w hw => absurd hw List.not_mem_nil⟩

/-- It can take in any number of connections before a signal comes. -/
theorem exists_taken (config : ServerConfig) (n : ℕ) :
    ∃ as s, .signal ∉ as ∧ Listener.Runs config .start as s ∧ Taken config n s := by
  induction n with
  | zero => exact exists_taken_zero config
  | succ n ih =>
    obtain ⟨as, ⟨main, p, hs⟩, hquiet, hrun, h⟩ := ih
    obtain ⟨ep, rfl⟩ := h.loop
    obtain ⟨fd, hserver, hlistening, hwatched⟩ := h.listening
    obtain ⟨as', client, hquiet', hround⟩ := @exists_round config p ep fd hs h.running
      hserver hlistening hwatched
    refine ⟨_, _, ?_, hrun.append hround, ⟨ep, rfl⟩, h.running, ⟨fd, hserver, hlistening, hwatched⟩,
      h.backlog, ?_, h.lost, ?_⟩
    · exact List.not_mem_append hquiet hquiet'
    · simpa using h.workers
    · intro w hw
      obtain hw | hw := List.mem_append.mp hw
      · exact h.serving w hw
      · exact ⟨client, List.mem_singleton.mp hw⟩

end Unbounded

/-! ### Results -/

section Results

variable {config : ServerConfig} {s : Listener}

/-- The counters, while the main thread is not just taking in a connection. -/
theorem Counted.agree (h : Counted s.main s.process) (hmain : s.main.counted = 0)
    (hlost : s.process.lost = []) :
    s.process.totalConnections = UInt64.ofNat s.process.workerThreads.length ∧
      s.process.activeConnections =
        UInt64.ofNat (s.process.workerThreads.countP Worker.active) := by
  have hentered : s.main.entered = 0 := by
    cases hpc : s.main <;> simp_all [MainPc.counted, MainPc.entered]
  refine ⟨?_, ?_⟩
  · simpa [hmain, hlost] using h.total
  · simpa [hentered, hlost] using h.active

/-- **The counters agree with the threads.** When the main thread is not just taking in a
connection, and a thread could be started for each so far, `total_connections_` is the number
of threads and `active_connections_` the number of those in their session. -/
theorem counters_agree {as : List Actor} (h : Listener.Runs config .start as s)
    (hmain : s.main.counted = 0) (hlost : s.process.lost = []) :
    s.process.totalConnections = UInt64.ofNat s.process.workerThreads.length ∧
      s.process.activeConnections =
        UInt64.ofNat (s.process.workerThreads.countP Worker.active) :=
  (counted_of_run h).agree hmain hlost

/-- Two connections, with one place to wait for being accepted. -/
theorem counters_agree_two : ∃ as s,
    Listener.Runs { maxConnections := 1 } .start as s ∧ s.process.totalConnections = 2 := by
  obtain ⟨as, s, -, hrun, htaken⟩ := exists_taken { maxConnections := 1 } 2
  obtain ⟨ep, hmain⟩ := htaken.loop
  refine ⟨as, s, hrun, ?_⟩
  rw [(counters_agree hrun (by rw [hmain]; rfl) htaken.lost).1, htaken.workers]
  rfl

/-- **Any number of sessions** can be served at a time, whatever `max_connections` is: it
bounds the queue of the listening socket only. -/
theorem any_number_of_sessions (config : ServerConfig) (n : ℕ) :
    ∃ as s, Listener.Runs config .start as s ∧ s.process.backlog = config.maxConnections ∧
      s.process.activeConnections = UInt64.ofNat n ∧ s.process.workerThreads.length = n ∧
      ∀ w ∈ s.process.workerThreads, ∃ socket, w = .serving socket [] := by
  obtain ⟨as, s, -, hrun, htaken⟩ := exists_taken config n
  obtain ⟨ep, hmain⟩ := htaken.loop
  refine ⟨as, s, hrun, htaken.backlog, ?_, htaken.workers, htaken.serving⟩
  have hall : s.process.workerThreads.countP Worker.active = n := by
    rw [List.countP_eq_length.mpr fun w hw => ?_, htaken.workers]
    obtain ⟨socket, rfl⟩ := htaken.serving w hw
    rfl
  rw [((counted_of_run hrun).agree (by rw [hmain]; rfl) htaken.lost).2, hall]

end Results

end AdaptiveSync
