import AdaptiveSync.Desktop.Handlers
import AdaptiveSync.Protocol.Separated

/-!
# Whose turn it is on a connection

Handlers of the desktop frontend share the client in the slot, so the operations on one
connection come from several of them, and a client that was replaced can come back. Still no
upload and no delta sync directly follows another on a connection (`client_ops_separated`):
between two of them the one synchronisation has negotiated on a client that it took out of the
slot, and all other clients that a command could bring back have last been used by a download
or a listing.

So on every connection of the application every answer belongs to its question, which for
operations in any order it need not (`client_answers_belong`).
-/

namespace AdaptiveSync

open Fs Duplex
open Loan (Run Desk)

/-! ### One place for each client -/

section Nodup

theorem mem_held_iff {client : InstalledClient} {commands : Multiset Command} :
    client ∈ held commands ↔ .working client ∈ commands := by
  have hholds : ∀ command : Command, command.holds = some client ↔ command = .working client := by
    intro command
    cases command <;> simp [Command.holds]
  rw [held, Multiset.mem_filterMap]
  constructor
  · rintro ⟨command, hmem, hcommand⟩
    rwa [(hholds command).mp hcommand] at hmem
  · exact fun hmem => ⟨_, hmem, rfl⟩

/-- No client is in the slot and in the hands of a command, or in those of two. -/
theorem nodup_of_run {es : List (Option (Loan.Event InstalledClient))} {b : Backend}
    (h : Run Backend.Step Backend.start es b) : b.desk.all.Nodup := by
  induction h with
  | nil => exact Multiset.nodup_zero
  | @snoc es b b' e hrun hlast ih =>
    have hdesk := hlast.desk
    cases e with
    | none =>
      rw [show b'.desk = b.desk from hdesk]
      exact ih
    | some d =>
      refine Loan.Step.nodup hdesk ih fun client hput hmem => ?_
      subst hput
      have hlt := (numbered_of_run hrun).working client (mem_held_iff.mp hmem)
      cases hlast with
      | install => exact Nat.lt_irrefl _ hlt

end Nodup

/-! ### Turns -/

/-- The operation on this client that begins with a step. -/
def Label.opOn (client : InstalledClient) : Label → Option Op
  | .lend c op => if c = client then op else none
  | _ => none

/-- The operations on a client, in the order in which they begin. Each has ended when the next
begins, since the client is in one place. -/
def opsOn (client : InstalledClient) (es : List Label) : List Op :=
  es.filterMap (Label.opOn client)

/-- Something may be left unread on the connection of this client. -/
def Unread (client : InstalledClient) (es : List Label) : Prop :=
  ∃ op ∈ (opsOn client es).getLast?, ¬ op.Drains

/-- The command is one that a handler with this purpose calls. -/
def FileCommand.Fits : FileCommand → Purpose → Prop
  | .negotiateFile _, .sync _ _ => True
  | .syncFile _ _ _, .sync _ _ => True
  | .downloadFile _, .download => True
  | .listServerFiles _ _, .load => True
  | .listServerFiles _ _, .refresh => True
  | .listServerFiles _ _, .reload => True
  | _, _ => False

/-- The synchronisation has negotiated, and is on its way to `sync_file`. -/
def Handler.Negotiated : Handler → Prop
  | .waiting _ (.negotiateFile _) (.working _) => True
  | .waiting _ (.negotiateFile _) (.returned (.negotiated _)) => True
  | .waiting _ (.syncFile _ _ _) .called => True
  | _ => False

/-- The client is in the slot or in the hands of a command. -/
def Desktop.Has (d : Desktop) (client : InstalledClient) : Prop :=
  d.client = some client ∨
    ∃ purpose command, .waiting purpose command (.working client) ∈ d.handlers

/-- Where clients can be on whose connection something is unread. -/
structure Taking (es : List Label) (d : Desktop) : Prop where
  separated : ∀ client, Separated (opsOn client es)
  numbered : ∀ client : InstalledClient, d.count ≤ client.id → opsOn client es = []
  /-- A command that has one of them is `sync_file`. -/
  held : ∀ purpose command client, .waiting purpose command (.working client) ∈ d.handlers →
    Unread client es → ∃ p fileMode transferMode, command = .syncFile p fileMode transferMode
  /-- None is around when the synchronisation has negotiated. -/
  negotiated : (∃ h ∈ d.handlers, h.Negotiated) → ∀ client, d.Has client → ¬ Unread client es
  fits : ∀ purpose command stage, .waiting purpose command stage ∈ d.handlers →
    command.Fits purpose

section Taking

variable {es : List Label} {d d' : Desktop} {e : Label}

theorem opsOn_append (client : InstalledClient) (es : List Label) (e : Label) :
    opsOn client (es ++ [e]) = opsOn client es ++ (e.opOn client).toList := by
  rw [opsOn, List.filterMap_append]
  refine congrArg (opsOn client es ++ ·) ?_
  cases h : e.opOn client <;> simp [h]

/-- A step with which no operation begins, and after which no more clients and commands are
where they should not be. -/
theorem Taking.congr (h : Taking es d) (hquiet : ∀ client, e.opOn client = none)
    (hcount : d.count ≤ d'.count)
    (hhas : ∀ client, d'.Has client → d.Has client ∨ d.count ≤ client.id)
    (hheld : ∀ purpose command client, .waiting purpose command (.working client) ∈ d'.handlers →
      .waiting purpose command (.working client) ∈ d.handlers)
    (hnegotiated : (∃ h ∈ d'.handlers, h.Negotiated) → ∃ h ∈ d.handlers, h.Negotiated)
    (hfits : ∀ purpose command stage, .waiting purpose command stage ∈ d'.handlers →
      command.Fits purpose) : Taking (es ++ [e]) d' := by
  have hops : ∀ client, opsOn client (es ++ [e]) = opsOn client es := by
    intro client
    rw [opsOn_append, hquiet client]
    exact List.append_nil _
  have hunread : ∀ client, Unread client (es ++ [e]) ↔ Unread client es := by
    intro client
    unfold Unread
    rw [hops]
  refine ⟨?_, ?_, ?_, ?_, hfits⟩
  · simpa only [hops] using h.separated
  · exact fun client hclient => (hops client).trans (h.numbered client (hcount.trans hclient))
  · intro purpose command client hmem hleft
    exact h.held purpose command client (hheld _ _ _ hmem) ((hunread client).mp hleft)
  · intro hneg client hclient hleft
    obtain hclient | hnew := hhas client hclient
    · exact h.negotiated (hnegotiated hneg) client hclient ((hunread client).mp hleft)
    · -- a new client has not been used
      obtain ⟨op, hop, -⟩ := (hunread client).mp hleft
      rw [h.numbered client hnew] at hop
      exact absurd hop (by simp)

/-- The handler has no client, and is not on its way to `sync_file`. -/
structure Handler.Plain (h : Handler) : Prop where
  free : ∀ purpose command client, h ≠ .waiting purpose command (.working client)
  early : ¬ h.Negotiated
  fits : ∀ purpose command stage, h = .waiting purpose command stage → command.Fits purpose

/-- Such handlers come, others go, and what comes into the slot is new. -/
theorem Taking.plain (h : Taking es d) (hquiet : ∀ client, e.opOn client = none)
    (hcount : d.count ≤ d'.count)
    (hslot : ∀ client, d'.client = some client → d.client = some client ∨ d.count ≤ client.id)
    (hmem : ∀ x ∈ d'.handlers, x ∈ d.handlers ∨ x.Plain) : Taking (es ++ [e]) d' := by
  have hheld : ∀ purpose command client,
      .waiting purpose command (.working client) ∈ d'.handlers →
      .waiting purpose command (.working client) ∈ d.handlers := fun purpose command client hx =>
    (hmem _ hx).resolve_right fun hplain => hplain.free purpose command client rfl
  refine h.congr hquiet hcount ?_ hheld ?_ ?_
  · rintro client (hclient | ⟨purpose, command, hx⟩)
    · exact (hslot client hclient).imp_left .inl
    · exact .inl (.inr ⟨purpose, command, hheld _ _ _ hx⟩)
  · rintro ⟨x, hx, hneg⟩
    exact ⟨x, (hmem x hx).resolve_right fun hplain => hplain.early hneg, hneg⟩
  · intro purpose command stage hx
    obtain hx | hplain := hmem _ hx
    · exact h.fits purpose command stage hx
    · exact hplain.fits purpose command stage rfl

/-- One such handler comes, and another goes. -/
theorem mem_or_plain {hs : Multiset Handler} {old new : Handler} (hplain : new.Plain) :
    ∀ x ∈ new ::ₘ hs, x ∈ old ::ₘ hs ∨ x.Plain := by
  intro x hx
  obtain rfl | hx := Multiset.mem_cons.mp hx
  · exact .inr hplain
  · exact .inl (Multiset.mem_cons_of_mem hx)

/-- A handler of another kind. -/
theorem plain_of_not_waiting {h : Handler}
    (hkind : ∀ purpose command stage, h ≠ .waiting purpose command stage) : h.Plain := by
  refine ⟨fun _ _ _ => hkind _ _ _, fun hneg => ?_, fun _ _ _ heq => absurd heq (hkind _ _ _)⟩
  cases h with
  | waiting purpose command stage => exact hkind _ _ _ rfl
  | _ => exact hneg

theorem plain_called {purpose : Purpose} {command : FileCommand} (hfits : command.Fits purpose)
    (hsync : ∀ p fileMode transferMode, command ≠ .syncFile p fileMode transferMode) :
    (Handler.waiting purpose command .called).Plain := by
  refine ⟨nofun, fun hneg => ?_, ?_⟩
  · cases command with
    | syncFile p fileMode transferMode => exact hsync _ _ _ rfl
    | _ => exact hneg
  · rintro _ _ _ ⟨⟩
    exact hfits

theorem plain_nextPath (ui : Frontend) (jobId : String) (rest : List String) :
    (ui.nextPath jobId rest).2.Plain := by
  cases rest with
  | nil => exact plain_called trivial nofun
  | cons path rest => exact plain_called trivial nofun

/-- A handler that goes on. -/
theorem Taking.resume {slot : Option InstalledClient} {sr : String} {n : ℕ} {ui ui' : Frontend}
    {hs : Multiset Handler} {purpose : Purpose} {command : FileCommand} {resolution : Resolution}
    {next : Option Handler}
    (h : Taking es ⟨slot, sr, n, ui, .waiting purpose command (.returned resolution) ::ₘ hs⟩)
    (hresume : Frontend.Resume ui purpose command resolution ui' next) :
    Taking (es ++ [.quiet]) ⟨slot, sr, n, ui', next.elim hs (· ::ₘ hs)⟩ := by
  cases hresume with
  | loaded | loadFailed | refreshed | refreshFailed | reloaded | reloadFailed =>
    exact h.plain (fun _ => rfl) le_rfl (fun _ => .inl) fun x hx =>
      .inl (Multiset.mem_cons_of_mem hx)
  | downloaded | notDownloaded | downloadFailed =>
    exact h.plain (fun _ => rfl) le_rfl (fun _ => .inl)
      (mem_or_plain (plain_called trivial nofun))
  | unchanged nextId _ hnext | synced nextId hnext | rejected _ nextId hnext =>
    subst hnext
    exact h.plain (fun _ => rfl) le_rfl (fun _ => .inl) (mem_or_plain (plain_nextPath _ _ _))
  | negotiated =>
    -- nothing has happened on a connection since the negotiation
    refine h.congr (fun _ => rfl) le_rfl (fun _ hclient => .inl ?_) (fun _ _ _ hx => ?_)
      (fun _ => ⟨_, Multiset.mem_cons_self _ _, trivial⟩) fun _ _ _ hx => ?_
    · obtain hclient | ⟨purpose, command, hx⟩ := hclient
      · exact .inl hclient
      · exact .inr ⟨purpose, command, by simpa using hx⟩
    · simpa using hx
    · obtain hx | hx := Multiset.mem_cons.mp hx
      · cases hx
        trivial
      · exact h.fits _ _ _ (Multiset.mem_cons_of_mem hx)

/-- A command gives the client back. -/
theorem Taking.drop {slot : Option InstalledClient} {sr : String} {n : ℕ} {ui : Frontend}
    {hs : Multiset Handler} {purpose : Purpose} {command : FileCommand} {resolution : Resolution}
    {client : InstalledClient}
    (h : Taking es ⟨slot, sr, n, ui, .waiting purpose command (.working client) ::ₘ hs⟩)
    (hresolves : FileCommand.Resolves client command resolution) :
    Taking (es ++ [.giveBack client]) ⟨ClientGuard.drop slot client, sr, n, ui,
      .waiting purpose command (.returned resolution) ::ₘ hs⟩ := by
  refine h.congr (fun _ => rfl) le_rfl (fun c hclient => .inl ?_) (fun _ _ _ hx => ?_) ?_
    fun _ _ _ hx => ?_
  · obtain hclient | ⟨purpose', command', hx⟩ := hclient
    · obtain rfl := Option.some.inj hclient
      exact .inr ⟨_, _, Multiset.mem_cons_self _ _⟩
    · exact .inr ⟨purpose', command', Multiset.mem_cons_of_mem (by simpa using hx)⟩
  · exact Multiset.mem_cons_of_mem (by simpa using hx)
  · rintro ⟨x, hx, hneg⟩
    obtain rfl | hx := Multiset.mem_cons.mp hx
    · refine ⟨_, Multiset.mem_cons_self _ _, ?_⟩
      cases hresolves with
      | negotiateFile p negotiated => trivial
      | _ => exact absurd hneg id
    · exact ⟨x, Multiset.mem_cons_of_mem hx, hneg⟩
  · obtain hx | hx := Multiset.mem_cons.mp hx
    · cases hx
      exact h.fits _ _ _ (Multiset.mem_cons_self _ _)
    · exact h.fits _ _ _ (Multiset.mem_cons_of_mem hx)

theorem unread_append_of_ne {client c : InstalledClient} {op : Option Op} (hc : c ≠ client) :
    Unread c (es ++ [.lend client op]) ↔ Unread c es := by
  unfold Unread
  rw [opsOn_append]
  simp [Label.opOn, hc.symm]

theorem unread_append_self {client : InstalledClient} {op : Op} :
    Unread client (es ++ [.lend client (some op)]) ↔ ¬ op.Drains := by
  unfold Unread
  rw [opsOn_append]
  simp [Label.opOn]

/-- All operations but those of `sync_file` skip what is left. -/
theorem FileCommand.drains_or_syncFile (command : FileCommand) :
    (∃ op, command.op = some op ∧ op.Drains) ∨
      ∃ p fileMode transferMode, command = .syncFile p fileMode transferMode := by
  cases command with
  | syncFile p fileMode transferMode => exact .inr ⟨_, _, _, rfl⟩
  | _ => exact .inl ⟨_, rfl, trivial⟩

/-- A handler that has negotiated is in `handleSync`, and so is one that calls `sync_file`. -/
theorem syncs_of_negotiated {h : Handler} (hneg : h.Negotiated)
    (hfits : ∀ purpose command stage, h = .waiting purpose command stage →
      command.Fits purpose) : h.Syncs := by
  cases h with
  | waiting purpose command stage =>
    have hfits := hfits purpose command stage rfl
    cases command with
    | negotiateFile | syncFile => cases purpose <;> trivial
    | _ => cases stage <;> exact absurd hneg id
  | _ => exact absurd hneg id

theorem syncs_of_syncFile {purpose : Purpose} {p fileMode transferMode : String} {stage : Stage}
    (hfits : (FileCommand.syncFile p fileMode transferMode).Fits purpose) :
    (Handler.waiting purpose (.syncFile p fileMode transferMode) stage).Syncs := by
  cases purpose <;> trivial

/-- **A command takes the client**, and its operation begins. -/
theorem Taking.take {sr : String} {n : ℕ} {ui : Frontend} {hs : Multiset Handler}
    {purpose : Purpose} {command : FileCommand} {client : InstalledClient}
    (h : Taking es ⟨some client, sr, n, ui, .waiting purpose command .called ::ₘ hs⟩)
    (halone : (Handler.waiting purpose command .called ::ₘ hs).countP Handler.Syncs ≤ 1)
    (hfree : ∀ purpose command, .waiting purpose command (.working client) ∉ hs)
    (hlt : client.id < n) :
    Taking (es ++ [.lend client command.op])
      ⟨none, sr, n, ui, .waiting purpose command (.working client) ::ₘ hs⟩ := by
  have hfits := h.fits purpose command .called (Multiset.mem_cons_self _ _)
  have hslot : Desktop.Has ⟨some client, sr, n, ui, .waiting purpose command .called ::ₘ hs⟩
      client := .inl rfl
  have hother : ∀ {c : InstalledClient} {purpose' command'},
      .waiting purpose' command' (.working c) ∈ hs → c ≠ client := by
    rintro c purpose' command' hx rfl
    exact hfree _ _ hx
  -- nobody else is in `handleSync` when the command is one of it
  have hnobody : (Handler.waiting purpose command .called).Syncs → ∀ x ∈ hs, ¬ x.Syncs := by
    intro hsyncs
    rw [Multiset.countP_cons_of_pos hs hsyncs] at halone
    exact Multiset.countP_eq_zero.mp (Nat.le_zero.mp (Nat.le_of_succ_le_succ halone))
  -- nothing is unread on the client where `sync_file` takes it
  have hclean : (∃ p fileMode transferMode, command = .syncFile p fileMode transferMode) →
      ¬ Unread client es := by
    rintro ⟨p, fileMode, transferMode, rfl⟩
    exact h.negotiated ⟨_, Multiset.mem_cons_self _ _, trivial⟩ client hslot
  have hleft : Unread client (es ++ [.lend client command.op]) →
      ∃ p fileMode transferMode, command = .syncFile p fileMode transferMode := by
    intro hunread
    obtain ⟨op, hop, hdrains⟩ | hsync := command.drains_or_syncFile
    · rw [hop] at hunread
      exact absurd hdrains (unread_append_self.mp hunread)
    · exact hsync
  refine ⟨fun c => ?_, fun c hc => ?_, ?_, ?_, ?_⟩
  · -- operations
    rw [opsOn_append]
    refine List.IsChain.append (h.separated c) ?_ ?_
    · cases (Label.lend client command.op).opOn c <;> simp
    · intro x hx y hy
      obtain ⟨rfl, hop⟩ : client = c ∧ command.op = some y := by
        by_cases hc : client = c
        · refine ⟨hc, ?_⟩
          cases hop : command.op <;> simp_all [Label.opOn]
        · simp [Label.opOn, hc] at hy
      obtain ⟨op, hop', hdrains⟩ | hsync := command.drains_or_syncFile
      · obtain rfl := Option.some.inj (hop'.symm.trans hop)
        exact .inr hdrains
      · exact .inl (by_contra fun hdrains => hclean hsync ⟨x, hx, hdrains⟩)
  · have hne : c ≠ client := by
      rintro rfl
      exact absurd hlt (Nat.not_lt.mpr hc)
    rw [opsOn_append, h.numbered c hc]
    simp [Label.opOn, hne.symm]
  · intro purpose' command' c hx hunread
    obtain hx | hx := Multiset.mem_cons.mp hx
    · cases hx
      exact hleft hunread
    · refine h.held purpose' command' c (Multiset.mem_cons_of_mem hx) ?_
      exact (unread_append_of_ne (hother hx)).mp hunread
  · rintro ⟨x, hx, hneg⟩ c (hslot' | ⟨purpose', command', hy⟩) hunread
    · exact absurd hslot' (by simp)
    obtain rfl | hxs := Multiset.mem_cons.mp hx
    · -- the command is `negotiate_file`
      have hsyncs : (Handler.waiting purpose command (.working client)).Syncs :=
        syncs_of_negotiated hneg (by rintro _ _ _ ⟨⟩; exact hfits)
      have hsyncs' : (Handler.waiting purpose command .called).Syncs := by
        cases purpose <;> exact hsyncs
      obtain hy | hy := Multiset.mem_cons.mp hy
      · cases hy
        obtain ⟨p, fileMode, transferMode, rfl⟩ := hleft hunread
        exact hneg
      · obtain ⟨p, fileMode, transferMode, rfl⟩ := h.held purpose' command' c
          (Multiset.mem_cons_of_mem hy) ((unread_append_of_ne (hother hy)).mp hunread)
        have hfits' := h.fits _ _ _ (Multiset.mem_cons_of_mem hy)
        exact hnobody hsyncs' _ hy (syncs_of_syncFile hfits')
    · -- another handler has negotiated
      have hxsyncs : x.Syncs := syncs_of_negotiated hneg (by
        rintro _ _ _ rfl
        exact h.fits _ _ _ (Multiset.mem_cons_of_mem hxs))
      have hearlier := h.negotiated ⟨x, Multiset.mem_cons_of_mem hxs, hneg⟩
      obtain hy | hy := Multiset.mem_cons.mp hy
      · cases hy
        obtain ⟨p, fileMode, transferMode, rfl⟩ := hleft hunread
        exact hnobody (syncs_of_syncFile hfits) x hxs hxsyncs
      · exact hearlier c (.inr ⟨_, _, Multiset.mem_cons_of_mem hy⟩)
          ((unread_append_of_ne (hother hy)).mp hunread)
  · intro purpose' command' stage hx
    obtain hx | hx := Multiset.mem_cons.mp hx
    · cases hx
      exact hfits
    · exact h.fits _ _ _ (Multiset.mem_cons_of_mem hx)

/-- A handler starts. -/
theorem Taking.start {slot : Option InstalledClient} {sr : String} {n : ℕ} {ui ui' : Frontend}
    {hs : Multiset Handler} {new : Handler} (h : Taking es ⟨slot, sr, n, ui, hs⟩)
    (hplain : new.Plain) : Taking (es ++ [.quiet]) ⟨slot, sr, n, ui', new ::ₘ hs⟩ := by
  refine h.plain (fun _ => rfl) le_rfl (fun _ => .inl) fun x hx => ?_
  obtain rfl | hx := Multiset.mem_cons.mp hx
  · exact .inr hplain
  · exact .inl hx

/-- What is around in the application, each client at one place. -/
theorem Desktop.free_of_slot {slot : Option InstalledClient} {sr : String} {n : ℕ} {ui : Frontend}
    {hs : Multiset Handler} {h : Handler} {client : InstalledClient}
    (hrun : Run Desktop.Step .start es ⟨slot, sr, n, ui, h ::ₘ hs⟩) (hslot : slot = some client) :
    (∀ purpose command, .waiting purpose command (.working client) ∉ hs) ∧ client.id < n := by
  obtain ⟨es', hbackend, -⟩ := Desktop.run_backend hrun
  have hnodup := nodup_of_run hbackend
  have hlent : client ∉ held (commandsOf (h ::ₘ hs)) := by
    subst hslot
    exact (Multiset.nodup_cons.mp hnodup).1
  refine ⟨fun purpose command hmem => hlent (mem_held_iff.mpr ?_), ?_⟩
  · rw [commandsOf, Multiset.mem_filterMap]
    exact ⟨_, Multiset.mem_cons_of_mem hmem, rfl⟩
  · exact (numbered_of_run hbackend).slot client hslot

theorem Taking.step (hrun : Run Desktop.Step .start es d) (h : Taking es d)
    (hstep : Desktop.Step d e d') : Taking (es ++ [e]) d' := by
  -- only `take` begins an operation, and only `install` puts a new client into the slot
  cases hstep with
  | connect | disconnect => exact h.start (plain_of_not_waiting fun _ _ _ => nofun)
  | sync jobId paths _ hnext =>
    subst hnext
    exact h.start (plain_nextPath _ _ _)
  | download => exact h.start (plain_called trivial nofun)
  | connectFailed | closed =>
    exact h.plain (fun _ => rfl) le_rfl (fun _ => .inl) fun x hx =>
      .inl (Multiset.mem_cons_of_mem hx)
  | removeNone =>
    exact h.plain (fun _ => rfl) le_rfl nofun fun x hx => .inl (Multiset.mem_cons_of_mem hx)
  | @install _ sr n =>
    refine h.plain (fun _ => rfl) (Nat.le_succ n) (fun client hclient => .inr ?_)
      (mem_or_plain (plain_of_not_waiting fun _ _ _ => nofun))
    obtain rfl := Option.some.inj hclient
    exact le_rfl
  | setRoot =>
    exact h.plain (fun _ => rfl) le_rfl (fun _ => .inl) (mem_or_plain (plain_called trivial nofun))
  | remove =>
    exact h.plain (fun _ => rfl) le_rfl nofun
      (mem_or_plain (plain_of_not_waiting fun _ _ _ => nofun))
  | take htake =>
    obtain ⟨rfl, rfl⟩ := ClientGuard.take_eq_ok htake
    obtain ⟨hfree, hlt⟩ := Desktop.free_of_slot hrun rfl
    refine h.take ?_ hfree hlt
    rw [(shown_of_run hrun).alone]
    exact Bool.toNat_le _
  | refused htake =>
    obtain ⟨rfl, rfl⟩ := ClientGuard.take_eq_error htake
    have hfits := h.fits _ _ _ (Multiset.mem_cons_self _ _)
    refine h.plain (fun _ => rfl) le_rfl nofun (mem_or_plain ⟨nofun, fun hneg => ?_, ?_⟩)
    · rename_i command _
      cases command <;> exact absurd hneg id
    · rintro _ _ _ ⟨⟩
      exact hfits
  | drop hresolves => exact h.drop hresolves
  | resume hresume => exact h.resume hresume

theorem taking_of_run (h : Run Desktop.Step .start es d) : Taking es d := by
  induction h with
  | nil =>
    refine ⟨fun client => List.isChain_nil, fun _ _ => rfl, ?_, ?_, ?_⟩
    · exact fun _ _ _ hmem => absurd hmem (Multiset.notMem_zero _)
    · exact fun ⟨x, hx, _⟩ => absurd hx (Multiset.notMem_zero _)
    · exact fun _ _ _ hmem => absurd hmem (Multiset.notMem_zero _)
  | snoc hrun hlast ih => exact ih.step hrun hlast

end Taking

/-! ### Every connection of the application -/

/-- **On each connection the operations are kept apart**, in every run of the application:
between two that need a connection with nothing left on it, there is always one that skips what
is left. -/
theorem client_ops_separated {es : List Label} {d : Desktop}
    (h : Run Desktop.Step .start es d) (client : InstalledClient) :
    Separated (opsOn client es) :=
  (taking_of_run h).separated client

/-- The client of a run of the application. -/
def sampleInstalled : InstalledClient := ⟨0, "a:9000", 4096, "r"⟩

/-- A file is negotiated and uploaded, while the file list is to be loaded. -/
theorem run_uploading : ∃ d, Run Desktop.Step .start
    [.quiet, .put sampleInstalled, .quiet, .quiet, .lend sampleInstalled (some (.negotiate "f")),
      .giveBack sampleInstalled, .quiet, .lend sampleInstalled (some (.uploadFile "f"))] d := by
  have hnegotiated := (run_syncing.snoc (.take rfl)).snoc
    (.drop (.negotiateFile "f" (.ok ⟨.fresh, .zeroCopy, 0, "", 4096⟩)))
  have hmode : jobMode (NegotiationReply.mk "FRESH" "ZERO_COPY" 0 "" 4096).transferMode ≠
      .unchanged := by decide
  have hcalled := hnegotiated.snoc (.resume (Frontend.Resume.negotiated hmode))
  rw [Option.elim_some] at hcalled
  exact ⟨_, hcalled.snoc (.take rfl)⟩

theorem client_ops_separated_uploading : Separated (opsOn sampleInstalled
    [.quiet, .put sampleInstalled, .quiet, .quiet, .lend sampleInstalled (some (.negotiate "f")),
      .giveBack sampleInstalled, .quiet, .lend sampleInstalled (some (.uploadFile "f"))]) := by
  obtain ⟨d, hrun⟩ := run_uploading
  exact client_ops_separated hrun sampleInstalled

/-- **Every answer that a client of the application takes belongs to its question**, in every
run of the application and every interleaving of the client and its session, with uploads of
less than 4 GiB, which the session's reads deliver. -/
theorem client_answers_belong {es : List Label} {d : Desktop}
    (h : Run Desktop.Step .start es d) (client : InstalledClient) (env : Env) (cl : TcpClient)
    (ops : List (Op × FileSystem)) (srv : Server) (hops : ops.map Prod.fst = opsOn client es)
    (hroomy : Roomy env cl ops (Link.start srv)) : AnswersBelong env cl ops srv := by
  refine own_of_separated env cl ops srv ?_ hroomy
  rw [hops]
  exact (taking_of_run h).separated client

theorem client_answers_belong_uploading : AnswersBelong storageEnv (sampleClient 4096)
    [(.negotiate "f", FileSystem.single ['c'] ['f'] (some [])),
      (.uploadFile "f", FileSystem.single ['c'] ['f'] (some []))]
    (Server.new 4096 (FileSystem.single ['s'] ['f'] none)) := by
  obtain ⟨d, hrun⟩ := run_uploading
  exact client_answers_belong hrun sampleInstalled _ _ _ _ rfl
    (roomy_of_no_deltaSync _ _ (by simp) _)

end AdaptiveSync
