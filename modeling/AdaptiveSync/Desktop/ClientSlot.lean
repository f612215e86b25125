import AdaptiveSync.Lib.Loan

/-!
# The client slot of the desktop backend

`AppState` of `ui/src-tauri/src/main.rs` has one slot for the connected client.
`connect_to_server` puts a client there and `disconnect_from_server` takes it out. A file
command takes it out for as long as it works, and its `ClientGuard` puts it back when the
command ends, whatever is in the slot by then. Commands are asynchronous, and others go on
between the steps of each (`Backend.Step`).

To the slot a file command is a borrower (`Backend.Step.desk`). So the slot holds the client
of the last `connect_to_server`, or nothing after a `disconnect_from_server`, as long as
neither of them touches it while a file command works; and once one of them has, the
commands in progress can end in such a way that a client that was replaced or disconnected
is back in the slot (`slot_holds_last`).
-/

namespace AdaptiveSync

open Loan

/-! ### The backend -/

/-- A client that has been put into the slot. Clients are numbered in the order in which
they were. -/
structure InstalledClient where
  id : ℕ
  serverAddr : String
  blockSize : UInt32
  syncRoot : String
  deriving DecidableEq

/-- A command in progress. -/
inductive Command where
  /-- `connect_to_server`, until `connect` returns. -/
  | connecting (serverAddr : String) (blockSize : UInt32) (syncRoot : String)
  /-- `connect_to_server`, with its client in the slot and the sync root not yet set. -/
  | installed (client : InstalledClient)
  /-- `disconnect_from_server`, before it looks into the slot. -/
  | disconnecting
  /-- `disconnect_from_server`, while `disconnect` runs on the client it found. -/
  | closing (client : InstalledClient)
  /-- A file command, before it looks into the slot. -/
  | called (context : String)
  /-- A file command that holds the client. -/
  | working (client : InstalledClient)

/-- The client a file command holds. -/
def Command.holds : Command → Option InstalledClient
  | .working client => some client
  | _ => none

/-- `AppState`, and the commands in progress. -/
structure Backend where
  client : Option InstalledClient
  syncRoot : String
  commands : Multiset Command
  /-- How many clients have been put into the slot. -/
  count : ℕ

/-- The backend when it is started. -/
def Backend.start : Backend := ⟨none, "/tmp/adaptivesync_sync", 0, 0⟩

/-- `ClientGuard::take`, with what is in the slot after it. A lock is never poisoned: nothing
panics while it is held. -/
def ClientGuard.take (slot : Option InstalledClient) (context : String) :
    Except String InstalledClient × Option InstalledClient :=
  match slot with
  | some client => (.ok client, none)
  | none => (.error ("Not connected (in " ++ context ++ ")"), none)

theorem ClientGuard.take_eq_ok {slot slot' : Option InstalledClient} {context : String}
    {client : InstalledClient} (h : ClientGuard.take slot context = (.ok client, slot')) :
    slot = some client ∧ slot' = none := by
  cases slot with
  | none => exact absurd h (by simp [ClientGuard.take])
  | some c =>
    obtain ⟨hclient, rfl⟩ := Prod.mk.inj h
    obtain rfl := Except.ok.inj hclient
    exact ⟨rfl, rfl⟩

theorem ClientGuard.take_eq_error {slot slot' : Option InstalledClient} {context error : String}
    (h : ClientGuard.take slot context = (.error error, slot')) : slot = none ∧ slot' = none := by
  cases slot with
  | none => exact ⟨rfl, (Prod.mk.inj h).2.symm⟩
  | some c => exact absurd h (by simp [ClientGuard.take])

/-- `ClientGuard::drop`. What is in the slot is overwritten. -/
def ClientGuard.drop (_slot : Option InstalledClient) (client : InstalledClient) :
    Option InstalledClient := some client

/-- A step of one command, with what it does to the slot. A lock is held within a step
only. -/
inductive Backend.Step : Backend → Option (Event InstalledClient) → Backend → Prop
  | connect {b : Backend} (serverAddr : String) (blockSize : UInt32) (syncRoot : String) :
    Step b none { b with commands := .connecting serverAddr blockSize syncRoot ::ₘ b.commands }
  | connectFailed {slot sr cmds n addr bs root} :
    Step ⟨slot, sr, .connecting addr bs root ::ₘ cmds, n⟩ none ⟨slot, sr, cmds, n⟩
  | install {slot sr cmds n addr bs root} :
    Step ⟨slot, sr, .connecting addr bs root ::ₘ cmds, n⟩ (some (.put ⟨n, addr, bs, root⟩))
      ⟨some ⟨n, addr, bs, root⟩, sr, .installed ⟨n, addr, bs, root⟩ ::ₘ cmds, n + 1⟩
  | setRoot {slot sr cmds n client} :
    Step ⟨slot, sr, .installed client ::ₘ cmds, n⟩ none ⟨slot, client.syncRoot, cmds, n⟩
  | disconnect {b : Backend} : Step b none { b with commands := .disconnecting ::ₘ b.commands }
  | remove {sr cmds n client} :
    Step ⟨some client, sr, .disconnecting ::ₘ cmds, n⟩ (some .clear)
      ⟨none, sr, .closing client ::ₘ cmds, n⟩
  /-- There is no client to disconnect. -/
  | removeNone {sr cmds n} :
    Step ⟨none, sr, .disconnecting ::ₘ cmds, n⟩ (some .clear) ⟨none, sr, cmds, n⟩
  | closed {slot sr cmds n client} :
    Step ⟨slot, sr, .closing client ::ₘ cmds, n⟩ none ⟨slot, sr, cmds, n⟩
  | call {b : Backend} (context : String) :
    Step b none { b with commands := .called context ::ₘ b.commands }
  | take {slot slot' sr cmds n context client}
    (h : ClientGuard.take slot context = (.ok client, slot')) :
    Step ⟨slot, sr, .called context ::ₘ cmds, n⟩ (some (.lend client))
      ⟨slot', sr, .working client ::ₘ cmds, n⟩
  | refused {slot slot' sr cmds n context error}
    (h : ClientGuard.take slot context = (.error error, slot')) :
    Step ⟨slot, sr, .called context ::ₘ cmds, n⟩ none ⟨slot', sr, cmds, n⟩
  | drop {slot sr cmds n client} :
    Step ⟨slot, sr, .working client ::ₘ cmds, n⟩ (some (.giveBack client))
      ⟨ClientGuard.drop slot client, sr, cmds, n⟩

/-- The client of the last `connect_to_server` in a run, unless a `disconnect_from_server`
has looked into the slot since. -/
def lastConnected (es : List (Option (Event InstalledClient))) : Option InstalledClient :=
  owner (es.filterMap id)

/-- Neither `connect_to_server` nor `disconnect_from_server` touches the slot while a file
command holds the client. -/
def Backend.Undisturbed (b : Backend) : Option (Event InstalledClient) → Prop
  | some (.put _) => ∀ client, Command.working client ∉ b.commands
  | some .clear => ∀ client, Command.working client ∉ b.commands
  | _ => True

/-! ### The slot of the backend -/

/-- The clients that file commands have taken out of the slot. -/
def held (commands : Multiset Command) : Multiset InstalledClient :=
  commands.filterMap Command.holds

theorem held_cons (cmd : Command) (cmds : Multiset Command) :
    held (cmd ::ₘ cmds) = match cmd.holds with
      | some client => client ::ₘ held cmds
      | none => held cmds := by
  cases h : cmd.holds with
  | some client => exact Multiset.filterMap_cons_some Command.holds cmd cmds h
  | none => exact Multiset.filterMap_cons_none cmd cmds h

theorem held_eq_zero_iff {commands : Multiset Command} :
    held commands = 0 ↔ ∀ client, Command.working client ∉ commands := by
  induction commands using Multiset.induction_on with
  | empty => simp [held]
  | cons cmd cmds ih =>
    rw [held_cons]
    cases cmd with
    | working client =>
      refine iff_of_false Multiset.cons_ne_zero fun hnone => ?_
      exact hnone client (Multiset.mem_cons_self _ _)
    | _ => simp [Command.holds, ih]

/-- What is in the slot, and what has been taken out of it. -/
def Backend.desk (b : Backend) : Desk InstalledClient := ⟨b.client, held b.commands⟩

section Desk

variable {b b' : Backend} {e : Option (Event InstalledClient)}
  {es : List (Option (Event InstalledClient))}

/-- To the slot, a file command is a borrower. -/
theorem Backend.Step.desk (h : Step b e b') :
    match e with
    | some d => Loan.Step b.desk d b'.desk
    | none => b'.desk = b.desk := by
  cases h with
  | connect => simp [Backend.desk, held_cons, Command.holds]
  | connectFailed => simp [Backend.desk, held_cons, Command.holds]
  | install => simpa [Backend.desk, held_cons, Command.holds] using Loan.Step.put _
  | setRoot => simp [Backend.desk, held_cons, Command.holds]
  | disconnect => simp [Backend.desk, held_cons, Command.holds]
  | remove => simpa [Backend.desk, held_cons, Command.holds] using Loan.Step.clear
  | removeNone => simpa [Backend.desk, held_cons, Command.holds] using Loan.Step.clear
  | closed => simp [Backend.desk, held_cons, Command.holds]
  | call => simp [Backend.desk, held_cons, Command.holds]
  | take h =>
    obtain ⟨rfl, rfl⟩ := ClientGuard.take_eq_ok h
    simpa [Backend.desk, held_cons, Command.holds] using Loan.Step.lend
  | refused h =>
    obtain ⟨rfl, rfl⟩ := ClientGuard.take_eq_error h
    simp [Backend.desk, held_cons, Command.holds]
  | drop =>
    simpa [Backend.desk, held_cons, Command.holds, ClientGuard.drop] using Loan.Step.giveBack

theorem Backend.Undisturbed.desk (h : b.Undisturbed e) :
    match e with
    | some d => Loan.Undisturbed b.desk d
    | none => True := by
  cases e with
  | none => trivial
  | some d =>
    cases d with
    | put a => exact held_eq_zero_iff.mpr h
    | clear => exact held_eq_zero_iff.mpr h
    | lend a => trivial
    | giveBack a => trivial

/-- Undisturbed, the slot holds the client of the last `connect_to_server` whenever no
command is in progress. -/
theorem client_eq_lastConnected
    (h : Run (fun b e b' => Backend.Step b e b' ∧ b.Undisturbed e) Backend.start es b)
    (hidle : b.commands = 0) : b.client = lastConnected es := by
  have hrun : Run (fun d e d' => Loan.Step d e d' ∧ Loan.Undisturbed d e) ⟨none, 0⟩
      (es.filterMap id) b.desk := by
    refine h.filterMap (f := Backend.desk) (g := id) fun {b e b'} hstep => ?_
    have hdesk := hstep.1.desk
    have hundisturbed := hstep.2.desk
    cases e with
    | none => exact hdesk
    | some d => exact ⟨hdesk, hundisturbed⟩
  refine slot_eq_owner hrun ?_
  change held b.commands = 0
  rw [hidle]
  rfl

end Desk

/-! ### After a disturbance -/

/-- The clients in the slot and in the hands of file commands have been installed. -/
structure Backend.Numbered (b : Backend) : Prop where
  slot : ∀ client, b.client = some client → client.id < b.count
  working : ∀ client, Command.working client ∈ b.commands → client.id < b.count

section Disturbed

variable {b b' : Backend} {e : Option (Event InstalledClient)}
  {es : List (Option (Event InstalledClient))}

theorem Backend.Numbered.step (h : b.Numbered) (hstep : Step b e b') : b'.Numbered := by
  obtain ⟨hslot, hworking⟩ := h
  cases hstep with
  | connect => exact ⟨hslot, fun c hc => hworking c (by simpa using hc)⟩
  | connectFailed => exact ⟨hslot, fun c hc => hworking c (Multiset.mem_cons_of_mem hc)⟩
  | install =>
    refine ⟨fun c hc => ?_, fun c hc => Nat.lt_succ_of_lt (hworking c (by simpa using hc))⟩
    obtain rfl := Option.some.inj hc
    exact Nat.lt_succ_self _
  | setRoot => exact ⟨hslot, fun c hc => hworking c (Multiset.mem_cons_of_mem hc)⟩
  | disconnect => exact ⟨hslot, fun c hc => hworking c (by simpa using hc)⟩
  | remove => exact ⟨nofun, fun c hc => hworking c (by simpa using hc)⟩
  | removeNone => exact ⟨nofun, fun c hc => hworking c (Multiset.mem_cons_of_mem hc)⟩
  | closed => exact ⟨hslot, fun c hc => hworking c (Multiset.mem_cons_of_mem hc)⟩
  | call => exact ⟨hslot, fun c hc => hworking c (by simpa using hc)⟩
  | take h =>
    obtain ⟨rfl, rfl⟩ := ClientGuard.take_eq_ok h
    refine ⟨nofun, fun c hc => ?_⟩
    obtain hc | hc := Multiset.mem_cons.mp hc
    · obtain rfl := Command.working.inj hc
      exact hslot _ rfl
    · exact hworking c (Multiset.mem_cons_of_mem hc)
  | refused h =>
    obtain ⟨rfl, rfl⟩ := ClientGuard.take_eq_error h
    exact ⟨nofun, fun c hc => hworking c (Multiset.mem_cons_of_mem hc)⟩
  | drop =>
    refine ⟨fun c hc => ?_, fun c hc => hworking c (Multiset.mem_cons_of_mem hc)⟩
    obtain rfl := Option.some.inj hc
    exact hworking _ (Multiset.mem_cons_self _ _)

theorem numbered_of_run (h : Run Backend.Step Backend.start es b) : b.Numbered := by
  induction h with
  | nil => exact ⟨nofun, by simp [Backend.start]⟩
  | snoc _ hstep ih => exact ih.step hstep

/-- A command in progress can come to its end by itself, without a client being installed. -/
theorem Command.ends (cmd : Command) (slot : Option InstalledClient) (sr : String)
    (cmds : Multiset Command) (n : ℕ) :
    ∃ es slot' sr', Run Backend.Step ⟨slot, sr, cmd ::ₘ cmds, n⟩ es ⟨slot', sr', cmds, n⟩ ∧
      ∀ client, some (.put client) ∉ es := by
  cases cmd with
  | connecting addr bs root => exact ⟨[none], slot, sr, .single .connectFailed, by simp⟩
  | installed client => exact ⟨[none], slot, client.syncRoot, .single .setRoot, by simp⟩
  | disconnecting =>
    cases slot with
    | none => exact ⟨[some .clear], none, sr, .single .removeNone, by simp⟩
    | some client =>
      exact ⟨[some .clear, none], none, sr, (Run.single .remove).snoc .closed, by simp⟩
  | closing client => exact ⟨[none], slot, sr, .single .closed, by simp⟩
  | called context =>
    cases slot with
    | none => exact ⟨[none], none, sr, .single (.refused rfl), by simp⟩
    | some client =>
      exact ⟨[some (.lend client), some (.giveBack client)], some client, sr,
        (Run.single (.take rfl)).snoc .drop, by simp⟩
  | working client =>
    exact ⟨[some (.giveBack client)], some client, sr, .single .drop, by simp⟩

/-- When a file command is the last to end, its client is in the slot. -/
theorem exists_run_working (client : InstalledClient) (cmds : Multiset Command) :
    ∀ slot sr n, ∃ es b, Run Backend.Step ⟨slot, sr, .working client ::ₘ cmds, n⟩ es b ∧
      b.commands = 0 ∧ b.client = some client ∧ ∀ other, some (.put other) ∉ es := by
  induction cmds using Multiset.induction_on with
  | empty =>
    intro slot sr n
    exact ⟨[some (.giveBack client)], ⟨some client, sr, 0, n⟩, .single .drop, rfl, rfl, by simp⟩
  | cons cmd cmds ih =>
    intro slot sr n
    -- the other command goes first
    obtain ⟨es₁, slot', sr', hrun₁, hput₁⟩ := cmd.ends slot sr (.working client ::ₘ cmds) n
    obtain ⟨es₂, b, hrun₂, hidle, hclient, hput₂⟩ := ih slot' sr' n
    rw [Multiset.cons_swap]
    refine ⟨es₁ ++ es₂, b, hrun₁.append hrun₂, hidle, hclient, fun other hmem => ?_⟩
    obtain hmem | hmem := List.mem_append.mp hmem
    · exact hput₁ other hmem
    · exact hput₂ other hmem

/-- A step disturbs only where a file command is at work. -/
theorem Backend.exists_working (h : ¬ b.Undisturbed e) :
    ∃ client, Command.working client ∈ b.commands := by
  by_contra hnone
  apply h
  cases e with
  | none => trivial
  | some d =>
    cases d with
    | put a => exact fun client hclient => hnone ⟨client, hclient⟩
    | clear => exact fun client hclient => hnone ⟨client, hclient⟩
    | lend a => trivial
    | giveBack a => trivial

/-- A disturbance leaves a file command at work with a client that is not wanted. -/
theorem exists_working_of_disturbed (hrun : Run Backend.Step Backend.start es b)
    (hstep : Backend.Step b e b') (hdisturbed : ¬ b.Undisturbed e) :
    ∃ client, Command.working client ∈ b'.commands ∧ lastConnected (es ++ [e]) ≠ some client := by
  obtain ⟨client, hclient⟩ := Backend.exists_working hdisturbed
  have hlast : ∀ d, lastConnected (es ++ [some d]) = d.owner (lastConnected es) := fun d => by
    rw [lastConnected, List.filterMap_append]
    exact owner_append_singleton _ d
  cases hstep with
  | install =>
    refine ⟨client, by simpa using hclient, ?_⟩
    -- the new client has a number of its own
    rw [hlast]
    intro hsame
    obtain rfl := Option.some.inj hsame
    exact absurd ((numbered_of_run hrun).working _ hclient) (Nat.lt_irrefl _)
  | remove =>
    refine ⟨client, by simpa using hclient, ?_⟩
    rw [hlast]
    exact nofun
  | removeNone =>
    refine ⟨client, by simpa using hclient, ?_⟩
    rw [hlast]
    exact nofun
  | _ => exact absurd trivial hdisturbed

/-- A disturbance can be followed by a state in which no command is in progress and the slot
does not hold what it should. -/
theorem exists_run_of_disturbed (hrun : Run Backend.Step Backend.start es b)
    (hstep : Backend.Step b e b') (hdisturbed : ¬ b.Undisturbed e) :
    ∃ es' b'', Run Backend.Step b' es' b'' ∧ b''.commands = 0 ∧
      b''.client ≠ lastConnected (es ++ [e] ++ es') := by
  obtain ⟨client, hworking, hwanted⟩ := exists_working_of_disturbed hrun hstep hdisturbed
  obtain ⟨slot, sr, cmds, n⟩ := b'
  obtain ⟨rest, rfl⟩ := Multiset.exists_cons_of_mem hworking
  obtain ⟨es', b'', hrun', hidle, hclient, hput⟩ := exists_run_working client rest slot sr n
  refine ⟨es', b'', hrun', hidle, ?_⟩
  rw [hclient, lastConnected, List.filterMap_append]
  exact (owner_append_ne hwanted (by simpa using hput)).symm

end Disturbed

/-- **The slot holds the last client.** In a run in which neither `connect_to_server` nor
`disconnect_from_server` touches the slot while a file command holds the client, the slot
holds the client of the last `connect_to_server`, if no `disconnect_from_server` came after
it, whenever no command is in progress. A run in which one of them does can go on to a state
in which no command is in progress and the slot holds another client. -/
theorem slot_holds_last {es : List (Option (Event InstalledClient))} {b : Backend} :
    (Run (fun b e b' => Backend.Step b e b' ∧ b.Undisturbed e) Backend.start es b →
        b.commands = 0 → b.client = lastConnected es) ∧
      ∀ {e b'}, Run Backend.Step Backend.start es b → Backend.Step b e b' →
        ¬ b.Undisturbed e → ∃ es' b'', Run Backend.Step b' es' b'' ∧ b''.commands = 0 ∧
          b''.client ≠ lastConnected (es ++ [e] ++ es') :=
  ⟨client_eq_lastConnected, exists_run_of_disturbed⟩

/-! ### Two clients -/

/-- The first client of a backend. -/
def clientA : InstalledClient := ⟨0, "a:9000", 4096, "r"⟩

/-- The second client of a backend. -/
def clientB : InstalledClient := ⟨1, "b:9000", 4096, "r"⟩

/-- The first client is connected, and a file command has it. -/
theorem run_working :
    Run (fun b e b' => Backend.Step b e b' ∧ b.Undisturbed e) Backend.start
      [none, some (.put clientA), none, none, some (.lend clientA)]
      ⟨none, "r", .working clientA ::ₘ 0, 1⟩ :=
  ((((Run.single ⟨.connect "a:9000" 4096 "r", trivial⟩).snoc
    ⟨.install, by simp [Backend.Undisturbed, Backend.start]⟩).snoc ⟨.setRoot, trivial⟩).snoc
    ⟨.call "list_server_files", trivial⟩).snoc ⟨.take rfl, trivial⟩

/-- The second client is connected while the file command has the first one. -/
theorem run_disturbed :
    Run Backend.Step Backend.start
      [none, some (.put clientA), none, none, some (.lend clientA), none]
      ⟨none, "r", .connecting "b:9000" 4096 "r" ::ₘ .working clientA ::ₘ 0, 1⟩ :=
  (run_working.mono And.left).snoc (.connect "b:9000" 4096 "r")

/-- When the file command ends before the second client is connected, the slot holds the
first; and when it does not, the slot may end up with another client than the second. -/
theorem slot_holds_last_two_clients :
    some clientA = lastConnected
        [none, some (.put clientA), none, none, some (.lend clientA), some (.giveBack clientA)] ∧
      ∃ es b, Run Backend.Step Backend.start es b ∧ b.commands = 0 ∧
        b.client ≠ lastConnected es := by
  refine ⟨slot_holds_last.1 (run_working.snoc ⟨.drop, trivial⟩) rfl, ?_⟩
  have hstep : Backend.Step
      ⟨none, "r", .connecting "b:9000" 4096 "r" ::ₘ .working clientA ::ₘ 0, 1⟩
      (some (.put clientB))
      ⟨some clientB, "r", .installed clientB ::ₘ .working clientA ::ₘ 0, 2⟩ := .install
  obtain ⟨es, b, hrun, hidle, hclient⟩ := slot_holds_last.2 run_disturbed hstep
    fun h => h clientA (by simp)
  exact ⟨_, b, (run_disturbed.snoc hstep).append hrun, hidle, hclient⟩

/-- The second client is connected while a file command has the first. When all commands have
ended, the first client is back in the slot. -/
theorem replaced_client_resurrected :
    ∃ es b, Run Backend.Step Backend.start es b ∧ b.commands = 0 ∧
      lastConnected es = some clientB ∧ b.client = some clientA := by
  have hinstalled : Run Backend.Step Backend.start
      [none, some (.put clientA), none, none, some (.lend clientA), none, some (.put clientB)]
      ⟨some clientB, "r", .installed clientB ::ₘ .working clientA ::ₘ 0, 2⟩ :=
    run_disturbed.snoc .install
  exact ⟨_, _, (hinstalled.snoc .setRoot).snoc .drop, rfl, rfl, rfl⟩

end AdaptiveSync
