import AdaptiveSync.Client.Operations
import AdaptiveSync.Desktop.TransferQueue

/-!
# The handlers of the desktop frontend

`App` of `ui/src/App.tsx` reacts to its user with asynchronous handlers, each of which calls
commands of `ui/src-tauri/src/main.rs` and waits for them. Nothing keeps two handlers from
being under way at a time, save that `handleSync` returns at once while `syncingRef` is set.
A run goes from one point at which a handler waits to the next, in any order, and a command
from its call to its end; the commands that come to nothing and the results of the network
are arbitrary (`Desktop.Step`).

The dialogs and the drop zone copy files with `upload_local_file`, which does not use the
client, and then call `handleSync`; here it can be called at any time, with any paths.

To the backend alone a run of the frontend is one of `Backend` (`Desktop.run_backend`). There
is at most one synchronisation, and the queue shows it: the jobs that are not complete and not
in error are those with the id of its current job (`queue_shows_current`).
-/

namespace AdaptiveSync

open Loan (Run Event)

/-! ### The file commands -/

/-- `DownloadResult`. -/
structure DownloadResult where
  success : Bool
  relativePath : String
  sha256 : String
  error : Option String
  deriving DecidableEq

/-- `download_file`, with the slot it finds and what `download_file` of the client returns. -/
def downloadFile (slot : Option InstalledClient) (downloaded : Except String String)
    (relativePath : String) : Except String DownloadResult := do
  let _ ← (ClientGuard.take slot "download_file").1
  match downloaded with
  | .ok hash => return ⟨true, relativePath, hash, none⟩
  | .error e => return ⟨false, relativePath, "", some e⟩

/-- `list_server_files`, with the slot it finds and what the client returns. -/
def listServerFiles (slot : Option InstalledClient)
    (listed : Except String (List FileMetadata)) : Except String (List FileEntry) := do
  let _ ← (ClientGuard.take slot "list_server_files").1
  let protoFiles ← listed
  return protoFiles.map fun f =>
    ⟨f.relativePath, f.fileSize, f.lastModifiedNs, f.sha256Hash, f.fileMode.label⟩

/-- A call of a file command. -/
inductive FileCommand where
  | negotiateFile (relativePath : String)
  | syncFile (relativePath fileMode transferMode : String)
  | downloadFile (relativePath : String)
  | listServerFiles (namePrefix : String) (recursive : Bool)

/-- What a command resolves or is rejected with. -/
inductive Resolution where
  | failed (err : String)
  | negotiated (reply : NegotiationReply)
  | synced (result : SyncResult)
  | downloaded (result : DownloadResult)
  | listed (files : List FileEntry)

/-- The result of a command, by the kind of its value. -/
def Resolution.of {α : Type} (f : α → Resolution) : Except String α → Resolution
  | .ok a => f a
  | .error err => .failed err

namespace FileCommand

/-- The name under which it takes the client. -/
def context : FileCommand → String
  | .negotiateFile _ => "negotiate_file"
  | .syncFile _ _ _ => "sync_file"
  | .downloadFile _ => "download_file"
  | .listServerFiles _ _ => "list_server_files"

/-- The operation it runs on the client it has taken: none for a file mode it does not
know. -/
def op : FileCommand → Option Op
  | .negotiateFile p => some (.negotiate p)
  | .syncFile p fileMode transferMode =>
    if fileMode = "FRESH" then some (.uploadFile p)
    else if fileMode = "MODIFIED" then
      some (if transferMode = "DELTA_SYNC" then .deltaSyncUpload p else .uploadFile p)
    else none
  | .downloadFile p => some (.downloadFile p)
  | .listServerFiles p recursive => some (.listServerFiles p recursive)

/-- What it can come to with this client. -/
inductive Resolves (client : InstalledClient) : FileCommand → Resolution → Prop
  | negotiateFile (p : String) (negotiated : Except String NegotiationResult) :
    Resolves client (.negotiateFile p)
      (.of .negotiated (AdaptiveSync.negotiateFile (some client) negotiated))
  | syncFile (p fileMode transferMode : String) (uploaded deltaSynced : Except String String) :
    Resolves client (.syncFile p fileMode transferMode)
      (.of .synced (AdaptiveSync.syncFile (some client) uploaded deltaSynced fileMode transferMode))
  | downloadFile (p : String) (downloaded : Except String String) :
    Resolves client (.downloadFile p)
      (.of .downloaded (AdaptiveSync.downloadFile (some client) downloaded p))
  | listServerFiles (p : String) (recursive : Bool)
      (listed : Except String (List FileMetadata)) :
    Resolves client (.listServerFiles p recursive)
      (.of .listed (AdaptiveSync.listServerFiles (some client) listed))

end FileCommand

/-! ### The handlers -/

/-- How far a call of a file command has come. -/
inductive Stage where
  /-- It has not looked into the slot yet. -/
  | called
  /-- It has the client. -/
  | working (client : InstalledClient)
  /-- It has ended, and its handler has not gone on yet. -/
  | returned (resolution : Resolution)

/-- What a handler that waits for a file command is about. -/
inductive Purpose where
  /-- `handleConnect`, when it loads the file list. -/
  | load
  /-- `handleSync`, with the id of the current job and the paths that are left. -/
  | sync (jobId : String) (rest : List String)
  /-- `handleSync`, when it refreshes the file list. -/
  | refresh
  /-- `handleDownload`. -/
  | download
  /-- `handleDownload`, when it refreshes the file list. -/
  | reload

/-- A handler that is under way. -/
inductive Handler where
  /-- `handleConnect`, until `connect` returns. -/
  | connecting (serverAddr : String) (blockSize : UInt32) (syncRoot : String)
  /-- `handleConnect`, with the client in the slot and the sync root not yet set. -/
  | installed (client : InstalledClient)
  /-- `handleDisconnect`, before the command looks into the slot. -/
  | disconnecting
  /-- `handleDisconnect`, while `disconnect` runs on the client. -/
  | closing (client : InstalledClient)
  | waiting (purpose : Purpose) (command : FileCommand) (stage : Stage)

/-- The call at the end of most handlers. -/
def listAll : FileCommand := .listServerFiles "" true

/-- The state of `App`. -/
structure Frontend where
  connected : Bool
  connecting : Bool
  app : App

namespace Frontend

variable (ui : Frontend)

def setTransfers (f : List TransferJob → List TransferJob) : Frontend :=
  { ui with app := { ui.app with transfers := f ui.app.transfers } }

def setFiles (files : List FileEntry) : Frontend :=
  { ui with app := { ui.app with files := files } }

def setSyncing (syncing : Bool) : Frontend :=
  { ui with app := { ui.app with syncing := syncing } }

/-- The head of the loop of `handleSync`, with the id that the next job gets. -/
def nextPath (jobId : String) : List String → Frontend × Handler
  | [] => (ui, .waiting .refresh listAll .called)
  | path :: rest =>
    (ui.setTransfers (· ++ [⟨jobId, path, .zeroCopy, 0, 0, 0, 0, .negotiating, none⟩]),
      .waiting (.sync jobId rest) (.negotiateFile path) .called)

/-- **How a handler goes on** after its command: what is left of it, if anything. -/
inductive Resume (ui : Frontend) :
    Purpose → FileCommand → Resolution → Frontend → Option Handler → Prop
  | loaded (command : FileCommand) (files : List FileEntry) :
    Resume ui .load command (.listed files) { ui.setFiles files with connecting := false } none
  | loadFailed (command : FileCommand) (err : String) :
    Resume ui .load command (.failed err) { ui with connected := false, connecting := false } none
  | negotiated {jobId path : String} {rest : List String} {reply : NegotiationReply}
      (h : jobMode reply.transferMode ≠ .unchanged) :
    Resume ui (.sync jobId rest) (.negotiateFile path) (.negotiated reply)
      (ui.setTransfers (setJob jobId fun j =>
        { j with transferMode := jobMode reply.transferMode, status := .transferring }))
      (some (.waiting (.sync jobId rest) (.syncFile path reply.fileMode reply.transferMode)
        .called))
  /-- Nothing is to be transferred. -/
  | unchanged {jobId path : String} {rest : List String} {reply : NegotiationReply} {next : _}
      (nextId : String) (h : jobMode reply.transferMode = .unchanged)
      (hnext : next = ((ui.setTransfers (setJob jobId fun j =>
          { j with transferMode := .unchanged, status := .transferring })).setTransfers
        (setJob jobId fun j => { j with status := .complete })).nextPath nextId rest) :
    Resume ui (.sync jobId rest) (.negotiateFile path) (.negotiated reply) next.1 (some next.2)
  /-- `success` is not looked at. -/
  | synced {jobId path fileMode transferMode : String} {rest : List String} {result : SyncResult}
      {next : _} (nextId : String)
      (hnext : next = (ui.setTransfers (setJob jobId fun j =>
        { j with status := .complete, bytesTransferred := j.bytesTotal })).nextPath nextId rest) :
    Resume ui (.sync jobId rest) (.syncFile path fileMode transferMode) (.synced result) next.1
      (some next.2)
  | rejected {jobId err : String} {rest : List String} {next : _} (command : FileCommand)
      (nextId : String)
      (hnext : next = (ui.setTransfers (setJob jobId (.fail err))).nextPath nextId rest) :
    Resume ui (.sync jobId rest) command (.failed err) next.1 (some next.2)
  | refreshed (command : FileCommand) (files : List FileEntry) :
    Resume ui .refresh command (.listed files) ((ui.setFiles files).setSyncing false) none
  | refreshFailed (command : FileCommand) (err : String) :
    Resume ui .refresh command (.failed err) (ui.setSyncing false) none
  | downloaded {result : DownloadResult} (command : FileCommand) (now : ℕ)
      (h : result.success = true) :
    Resume ui .download command (.downloaded result)
      (ui.setTransfers (· ++ [⟨"dl-" ++ toString now, result.relativePath, .zeroCopy, 0, 0, 0, 0,
        .complete, none⟩]))
      (some (.waiting .reload listAll .called))
  | notDownloaded {result : DownloadResult} (command : FileCommand)
      (h : result.success = false) :
    Resume ui .download command (.downloaded result) ui (some (.waiting .reload listAll .called))
  | downloadFailed (command : FileCommand) (err : String) :
    Resume ui .download command (.failed err) ui (some (.waiting .reload listAll .called))
  | reloaded (command : FileCommand) (files : List FileEntry) :
    Resume ui .reload command (.listed files) (ui.setFiles files) none
  | reloadFailed (command : FileCommand) (err : String) :
    Resume ui .reload command (.failed err) ui none

end Frontend

/-- The application: `AppState` of the backend with the number of clients so far, the state of
`App`, and the handlers under way. -/
structure Desktop where
  client : Option InstalledClient
  syncRoot : String
  count : ℕ
  ui : Frontend
  handlers : Multiset Handler

/-- The application when it is started. -/
def Desktop.start : Desktop :=
  ⟨none, "/tmp/adaptivesync_sync", 0, ⟨false, false, ⟨[], [], false⟩⟩, 0⟩

/-- What a step does to the slot, and the operation that begins with it. -/
inductive Label where
  | quiet
  | put (client : InstalledClient)
  | clear
  | lend (client : InstalledClient) (op : Option Op)
  | giveBack (client : InstalledClient)

/-- What the slot sees of it. -/
def Label.event : Label → Option (Event InstalledClient)
  | .quiet => none
  | .put client => some (.put client)
  | .clear => some .clear
  | .lend client _ => some (.lend client)
  | .giveBack client => some (.giveBack client)

/-- `handleDisconnect`, after its command. -/
def Frontend.disconnect (ui : Frontend) : Frontend :=
  ⟨false, ui.connecting, { ui.app with files := [], transfers := [] }⟩

/-- **A step of the application.** -/
inductive Desktop.Step : Desktop → Label → Desktop → Prop
  | connect {slot sr n ui hs} (serverAddr : String) (blockSize : UInt32) (syncRoot : String) :
    Step ⟨slot, sr, n, ui, hs⟩ .quiet
      ⟨slot, sr, n, { ui with connecting := true },
        .connecting serverAddr blockSize syncRoot ::ₘ hs⟩
  | connectFailed {slot sr n ui hs addr bs root} :
    Step ⟨slot, sr, n, ui, .connecting addr bs root ::ₘ hs⟩ .quiet
      ⟨slot, sr, n, { ui with connected := false, connecting := false }, hs⟩
  | install {slot sr n ui hs addr bs root} :
    Step ⟨slot, sr, n, ui, .connecting addr bs root ::ₘ hs⟩ (.put ⟨n, addr, bs, root⟩)
      ⟨some ⟨n, addr, bs, root⟩, sr, n + 1, ui, .installed ⟨n, addr, bs, root⟩ ::ₘ hs⟩
  | setRoot {slot sr n ui hs client} :
    Step ⟨slot, sr, n, ui, .installed client ::ₘ hs⟩ .quiet
      ⟨slot, client.syncRoot, n, { ui with connected := true },
        .waiting .load listAll .called ::ₘ hs⟩
  | disconnect {slot sr n ui hs} :
    Step ⟨slot, sr, n, ui, hs⟩ .quiet ⟨slot, sr, n, ui, .disconnecting ::ₘ hs⟩
  | remove {sr n ui hs client} :
    Step ⟨some client, sr, n, ui, .disconnecting ::ₘ hs⟩ .clear
      ⟨none, sr, n, ui, .closing client ::ₘ hs⟩
  | removeNone {sr n ui hs} :
    Step ⟨none, sr, n, ui, .disconnecting ::ₘ hs⟩ .clear ⟨none, sr, n, ui.disconnect, hs⟩
  | closed {slot sr n ui hs client} :
    Step ⟨slot, sr, n, ui, .closing client ::ₘ hs⟩ .quiet ⟨slot, sr, n, ui.disconnect, hs⟩
  /-- `handleSync`, when no synchronisation is going on. -/
  | sync {slot sr n ui hs next} (jobId : String) (paths : List String)
      (h : ui.app.syncing = false) (hnext : next = (ui.setSyncing true).nextPath jobId paths) :
    Step ⟨slot, sr, n, ui, hs⟩ .quiet ⟨slot, sr, n, next.1, next.2 ::ₘ hs⟩
  | download {slot sr n ui hs} (relativePath : String) :
    Step ⟨slot, sr, n, ui, hs⟩ .quiet
      ⟨slot, sr, n, ui, .waiting .download (.downloadFile relativePath) .called ::ₘ hs⟩
  | take {slot slot' sr n ui hs purpose command client}
      (h : ClientGuard.take slot command.context = (.ok client, slot')) :
    Step ⟨slot, sr, n, ui, .waiting purpose command .called ::ₘ hs⟩ (.lend client command.op)
      ⟨slot', sr, n, ui, .waiting purpose command (.working client) ::ₘ hs⟩
  | refused {slot slot' sr n ui hs purpose command error}
      (h : ClientGuard.take slot command.context = (.error error, slot')) :
    Step ⟨slot, sr, n, ui, .waiting purpose command .called ::ₘ hs⟩ .quiet
      ⟨slot', sr, n, ui, .waiting purpose command (.returned (.failed error)) ::ₘ hs⟩
  | drop {slot sr n ui hs purpose command client resolution}
      (h : FileCommand.Resolves client command resolution) :
    Step ⟨slot, sr, n, ui, .waiting purpose command (.working client) ::ₘ hs⟩ (.giveBack client)
      ⟨ClientGuard.drop slot client, sr, n, ui,
        .waiting purpose command (.returned resolution) ::ₘ hs⟩
  | resume {slot sr n ui ui' hs purpose command resolution next}
      (h : Frontend.Resume ui purpose command resolution ui' next) :
    Step ⟨slot, sr, n, ui, .waiting purpose command (.returned resolution) ::ₘ hs⟩ .quiet
      ⟨slot, sr, n, ui', next.elim hs (· ::ₘ hs)⟩

/-! ### What the backend sees -/

/-- The command of a handler. -/
def Handler.command : Handler → Option Command
  | .connecting serverAddr blockSize syncRoot => some (.connecting serverAddr blockSize syncRoot)
  | .installed client => some (.installed client)
  | .disconnecting => some .disconnecting
  | .closing client => some (.closing client)
  | .waiting _ command .called => some (.called command.context)
  | .waiting _ _ (.working client) => some (.working client)
  | .waiting _ _ (.returned _) => none

/-- The commands in progress. -/
def commandsOf (handlers : Multiset Handler) : Multiset Command :=
  handlers.filterMap Handler.command

/-- The application as its backend. -/
def Desktop.backend (d : Desktop) : Backend :=
  ⟨d.client, d.syncRoot, commandsOf d.handlers, d.count⟩

section Backend

variable {d d' : Desktop} {e : Label} {es : List Label} {hs : Multiset Handler} {h : Handler}

theorem commandsOf_cons : commandsOf (h ::ₘ hs) = match h.command with
    | some command => command ::ₘ commandsOf hs
    | none => commandsOf hs := by
  cases hc : h.command with
  | some command => exact Multiset.filterMap_cons_some Handler.command h hs hc
  | none => exact Multiset.filterMap_cons_none h hs hc

/-- What a handler does after its command is at most the call of another. -/
theorem Frontend.Resume.next {ui ui' : Frontend} {purpose : Purpose} {command : FileCommand}
    {resolution : Resolution} {next : Option Handler}
    (h : Resume ui purpose command resolution ui' next) :
    next = none ∨ ∃ purpose' command', next = some (.waiting purpose' command' .called) := by
  have hpath : ∀ (ui : Frontend) (id : String) (rest : List String),
      ∃ purpose' command', (ui.nextPath id rest).2 = .waiting purpose' command' .called := by
    intro ui id rest
    cases rest <;> exact ⟨_, _, rfl⟩
  cases h with
  | unchanged nextId _ hnext | synced nextId hnext | rejected _ nextId hnext =>
    obtain ⟨purpose', command', hpath⟩ := hpath _ nextId _
    exact .inr ⟨purpose', command', congrArg some (by rw [hnext, hpath])⟩
  | negotiated | downloaded | notDownloaded | downloadFailed => exact .inr ⟨_, _, rfl⟩
  | _ => exact .inl rfl

/-- A step of the application is none of the backend, or one or two. -/
theorem Desktop.Step.backend (hstep : Desktop.Step d e d') :
    ∃ es', Run Backend.Step d.backend es' d'.backend ∧ es'.filterMap id = e.event.toList := by
  cases hstep with
  | connect addr bs root =>
    refine ⟨[none], .single ?_, rfl⟩
    simpa only [Desktop.backend, commandsOf_cons, Handler.command] using .connect addr bs root
  | connectFailed =>
    refine ⟨[none], .single ?_, rfl⟩
    simpa only [Desktop.backend, commandsOf_cons, Handler.command] using .connectFailed
  | install =>
    refine ⟨[some _], .single ?_, rfl⟩
    simpa only [Desktop.backend, commandsOf_cons, Handler.command] using .install
  | setRoot =>
    refine ⟨[none] ++ [none], ?_, rfl⟩
    -- `handleConnect` goes on to its next command at once
    simpa only [Desktop.backend, commandsOf_cons, Handler.command] using
      (Run.single .setRoot).snoc (.call _)
  | disconnect =>
    refine ⟨[none], .single ?_, rfl⟩
    simpa only [Desktop.backend, commandsOf_cons, Handler.command] using .disconnect
  | remove =>
    refine ⟨[some .clear], .single ?_, rfl⟩
    simpa only [Desktop.backend, commandsOf_cons, Handler.command] using .remove
  | removeNone =>
    refine ⟨[some .clear], .single ?_, rfl⟩
    simpa only [Desktop.backend, commandsOf_cons, Handler.command] using .removeNone
  | closed =>
    refine ⟨[none], .single ?_, rfl⟩
    simpa only [Desktop.backend, commandsOf_cons, Handler.command] using .closed
  | @sync slot sr n ui hs next jobId paths _ hnext =>
    obtain ⟨purpose, command, hcommand⟩ :
        ∃ purpose command, next.2 = .waiting purpose command .called := by
      subst hnext
      cases paths <;> exact ⟨_, _, rfl⟩
    refine ⟨[none], .single ?_, rfl⟩
    simpa only [Desktop.backend, commandsOf_cons, hcommand, Handler.command] using .call _
  | download p =>
    refine ⟨[none], .single ?_, rfl⟩
    simpa only [Desktop.backend, commandsOf_cons, Handler.command] using .call _
  | take htake =>
    refine ⟨[some (.lend _)], .single ?_, rfl⟩
    simpa only [Desktop.backend, commandsOf_cons, Handler.command] using .take htake
  | refused htake =>
    refine ⟨[none], .single ?_, rfl⟩
    simpa only [Desktop.backend, commandsOf_cons, Handler.command] using .refused htake
  | drop =>
    refine ⟨[some (.giveBack _)], .single ?_, rfl⟩
    simpa only [Desktop.backend, commandsOf_cons, Handler.command] using .drop
  | resume hresume =>
    obtain rfl | ⟨purpose', command', rfl⟩ := hresume.next
    · refine ⟨[], ?_, rfl⟩
      simpa only [Desktop.backend, commandsOf_cons, Handler.command] using .nil
    · refine ⟨[none], .single ?_, rfl⟩
      simpa only [Desktop.backend, commandsOf_cons, Handler.command, Option.elim_some] using
        .call _

/-- **A run of the application is one of the backend**, with the same events at the slot. -/
theorem Desktop.run_backend (h : Run Desktop.Step .start es d) :
    ∃ es', Run Backend.Step .start es' d.backend ∧
      es'.filterMap id = es.filterMap Label.event := by
  induction h with
  | nil => exact ⟨[], .nil, rfl⟩
  | snoc _ hlast ih =>
    obtain ⟨es₁, hrun₁, hevents₁⟩ := ih
    obtain ⟨es₂, hrun₂, hevents₂⟩ := hlast.backend
    refine ⟨es₁ ++ es₂, hrun₁.append hrun₂, ?_⟩
    rw [List.filterMap_append, List.filterMap_append, hevents₁, hevents₂]
    rename_i e _
    cases e <;> rfl

end Backend

/-! ### The queue -/

/-- A handler that is in the body of `handleSync`. -/
def Handler.Syncs : Handler → Prop
  | .waiting (.sync _ _) _ _ => True
  | .waiting .refresh _ _ => True
  | _ => False

instance : DecidablePred Handler.Syncs := fun h => by
  cases h with
  | waiting purpose command stage => cases purpose <;> unfold Handler.Syncs <;> infer_instance
  | _ => unfold Handler.Syncs; infer_instance

/-- The job has neither arrived nor failed. -/
def TransferJob.Active (j : TransferJob) : Prop := j.status ≠ .complete ∧ j.status ≠ .error

/-- There is one synchronisation while `syncingRef` is set and none otherwise, and the jobs
that are active are those of its current path. -/
structure Shown (app : App) (handlers : Multiset Handler) : Prop where
  alone : handlers.countP Handler.Syncs = app.syncing.toNat
  current : ∀ j ∈ app.transfers, j.Active →
    ∃ rest command stage, .waiting (.sync j.id rest) command stage ∈ handlers

section Queue

variable {app : App} {hs : Multiset Handler} {h : Handler} {command : FileCommand}
  {stage : Stage} {jobId : String} {rest : List String} {transfers : List TransferJob}
  {f : TransferJob → TransferJob} {ui ui' : Frontend}

/-- Other handlers come and go. -/
theorem shown_cons_iff (hsyncs : ¬ h.Syncs) : Shown app (h ::ₘ hs) ↔ Shown app hs := by
  have hmem : ∀ {id rest command stage}, .waiting (.sync id rest) command stage ∈ h ::ₘ hs ↔
      .waiting (.sync id rest) command stage ∈ hs := by
    intro id rest command stage
    rw [Multiset.mem_cons]
    refine or_iff_right ?_
    rintro rfl
    exact hsyncs trivial
  constructor
  · rintro ⟨halone, hcurrent⟩
    rw [Multiset.countP_cons_of_neg hs hsyncs] at halone
    exact ⟨halone, by simpa only [hmem] using hcurrent⟩
  · rintro ⟨halone, hcurrent⟩
    refine ⟨?_, by simpa only [hmem] using hcurrent⟩
    rwa [Multiset.countP_cons_of_neg hs hsyncs]

/-- No synchronisation is going on. -/
theorem shown_idle_iff (hs0 : hs.countP Handler.Syncs = 0) :
    Shown app hs ↔ app.syncing = false ∧ ∀ j ∈ app.transfers, ¬ j.Active := by
  constructor
  · rintro ⟨halone, hcurrent⟩
    rw [hs0] at halone
    refine ⟨by simpa using halone.symm, fun j hj hactive => ?_⟩
    obtain ⟨rest, command, stage, hmem⟩ := hcurrent j hj hactive
    exact Multiset.countP_eq_zero.mp hs0 _ hmem trivial
  · rintro ⟨hsyncing, hactive⟩
    refine ⟨by rw [hs0, hsyncing]; rfl, fun j hj hj' => absurd hj' (hactive j hj)⟩

/-- A synchronisation is at a path. -/
theorem shown_sync_iff : Shown app (.waiting (.sync jobId rest) command stage ::ₘ hs) ↔
    hs.countP Handler.Syncs = 0 ∧ app.syncing = true ∧
      ∀ j ∈ app.transfers, j.Active → j.id = jobId := by
  have hcount := Multiset.countP_cons_of_pos (p := Handler.Syncs)
    (a := .waiting (.sync jobId rest) command stage) hs trivial
  constructor
  · rintro ⟨halone, hcurrent⟩
    rw [hcount] at halone
    have hsyncing : app.syncing = true := by
      cases hc : app.syncing <;> simp [hc] at halone ⊢
    have hs0 : hs.countP Handler.Syncs = 0 := by
      rw [hsyncing] at halone
      exact Nat.succ.inj halone
    refine ⟨hs0, hsyncing, fun j hj hactive => ?_⟩
    obtain ⟨rest', command', stage', hmem⟩ := hcurrent j hj hactive
    obtain heq | hmem := Multiset.mem_cons.mp hmem
    · obtain ⟨hid, -⟩ := Purpose.sync.inj (Handler.waiting.inj heq).1
      exact hid
    · exact absurd trivial (Multiset.countP_eq_zero.mp hs0 _ hmem)
  · rintro ⟨hs0, hsyncing, hid⟩
    refine ⟨by rw [hcount, hs0, hsyncing]; rfl, fun j hj hactive => ?_⟩
    exact ⟨rest, command, stage, hid j hj hactive ▸ Multiset.mem_cons_self _ _⟩

/-- A synchronisation is at its end. -/
theorem shown_refresh_iff : Shown app (.waiting .refresh command stage ::ₘ hs) ↔
    hs.countP Handler.Syncs = 0 ∧ app.syncing = true ∧ ∀ j ∈ app.transfers, ¬ j.Active := by
  have hcount := Multiset.countP_cons_of_pos (p := Handler.Syncs)
    (a := .waiting .refresh command stage) hs trivial
  constructor
  · rintro ⟨halone, hcurrent⟩
    rw [hcount] at halone
    have hsyncing : app.syncing = true := by
      cases hc : app.syncing <;> simp [hc] at halone ⊢
    have hs0 : hs.countP Handler.Syncs = 0 := by
      rw [hsyncing] at halone
      exact Nat.succ.inj halone
    refine ⟨hs0, hsyncing, fun j hj hactive => ?_⟩
    obtain ⟨rest', command', stage', hmem⟩ := hcurrent j hj hactive
    obtain heq | hmem := Multiset.mem_cons.mp hmem
    · exact absurd (Handler.waiting.inj heq).1 (by simp)
    · exact absurd trivial (Multiset.countP_eq_zero.mp hs0 _ hmem)
  · rintro ⟨hs0, hsyncing, hactive⟩
    exact ⟨by rw [hcount, hs0, hsyncing]; rfl, fun j hj hj' => absurd hj' (hactive j hj)⟩

theorem id_of_mem_setJob (hid : ∀ j ∈ transfers, j.Active → j.id = jobId)
    (hf : ∀ j, (f j).id = j.id) : ∀ j ∈ setJob jobId f transfers, j.Active → j.id = jobId := by
  intro j hj hactive
  obtain ⟨i, hi, rfl⟩ := List.mem_map.mp hj
  by_cases heq : i.id = jobId
  · rw [if_pos heq]
    exact (hf i).trans heq
  · rw [if_neg heq] at hactive
    exact absurd (hid i hi hactive) heq

/-- When the jobs of a path are settled, none is active. -/
theorem not_active_of_mem_setJob (hid : ∀ j ∈ transfers, j.Active → j.id = jobId)
    (hf : ∀ j, ¬ (f j).Active) : ∀ j ∈ setJob jobId f transfers, ¬ j.Active := by
  intro j hj hactive
  obtain ⟨i, hi, rfl⟩ := List.mem_map.mp hj
  split at hactive
  · exact hf i hactive
  · next hne => exact hne (hid i hi hactive)

/-- The next path, when no job is active. -/
theorem shown_nextPath (hs0 : hs.countP Handler.Syncs = 0) (hsyncing : ui.app.syncing = true)
    (hactive : ∀ j ∈ ui.app.transfers, ¬ j.Active) (nextId : String) :
    Shown (ui.nextPath nextId rest).1.app ((ui.nextPath nextId rest).2 ::ₘ hs) := by
  cases rest with
  | nil => exact shown_refresh_iff.mpr ⟨hs0, hsyncing, hactive⟩
  | cons path rest =>
    refine shown_sync_iff.mpr ⟨hs0, hsyncing, fun j hj hj' => ?_⟩
    obtain hj | hj := List.mem_append.mp hj
    · exact absurd hj' (hactive j hj)
    · rw [List.mem_singleton.mp hj]

/-- Going on after a command. -/
theorem Shown.resume {purpose : Purpose} {resolution : Resolution} {next : Option Handler}
    (hshown : Shown ui.app (.waiting purpose command (.returned resolution) ::ₘ hs))
    (h : Frontend.Resume ui purpose command resolution ui' next) :
    Shown ui'.app (next.elim hs (· ::ₘ hs)) := by
  cases h with
  | loaded | loadFailed | reloaded | reloadFailed =>
    obtain ⟨halone, hcurrent⟩ := (shown_cons_iff id).mp hshown
    exact ⟨halone, hcurrent⟩
  | notDownloaded | downloadFailed =>
    exact (shown_cons_iff id).mpr ((shown_cons_iff id).mp hshown)
  | downloaded _ now hsuccess =>
    obtain ⟨halone, hcurrent⟩ := (shown_cons_iff id).mp hshown
    refine (shown_cons_iff id).mpr ⟨halone, fun j hj hactive => ?_⟩
    obtain hj | hj := List.mem_append.mp hj
    · exact hcurrent j hj hactive
    · -- the job of a download is complete
      rw [List.mem_singleton.mp hj] at hactive
      exact absurd rfl hactive.1
  | negotiated hmode =>
    obtain ⟨hs0, hsyncing, hid⟩ := shown_sync_iff.mp hshown
    exact shown_sync_iff.mpr ⟨hs0, hsyncing, id_of_mem_setJob hid fun _ => rfl⟩
  | unchanged nextId hmode hnext =>
    obtain ⟨hs0, hsyncing, hid⟩ := shown_sync_iff.mp hshown
    subst hnext
    apply shown_nextPath hs0
    · exact hsyncing
    · exact not_active_of_mem_setJob (id_of_mem_setJob hid fun _ => rfl) fun j hj => hj.1 rfl
  | synced nextId hnext =>
    obtain ⟨hs0, hsyncing, hid⟩ := shown_sync_iff.mp hshown
    subst hnext
    apply shown_nextPath hs0
    · exact hsyncing
    · exact not_active_of_mem_setJob hid fun j hj => hj.1 rfl
  | rejected _ nextId hnext =>
    obtain ⟨hs0, hsyncing, hid⟩ := shown_sync_iff.mp hshown
    subst hnext
    apply shown_nextPath hs0
    · exact hsyncing
    · exact not_active_of_mem_setJob hid fun j hj => hj.2 rfl
  | refreshed | refreshFailed =>
    obtain ⟨hs0, -, hactive⟩ := shown_refresh_iff.mp hshown
    exact (shown_idle_iff hs0).mpr ⟨rfl, hactive⟩

/-- A command goes on, and its handler waits. -/
theorem Shown.goesOn {purpose : Purpose} (stage' : Stage)
    (hshown : Shown app (.waiting purpose command stage ::ₘ hs)) :
    Shown app (.waiting purpose command stage' ::ₘ hs) := by
  cases purpose with
  | sync jobId rest => exact shown_sync_iff.mpr (shown_sync_iff.mp hshown)
  | refresh => exact shown_refresh_iff.mpr (shown_refresh_iff.mp hshown)
  | load | download | reload => exact (shown_cons_iff id).mpr ((shown_cons_iff id).mp hshown)

/-- `handleDisconnect` clears the queue. -/
theorem Shown.disconnect (hshown : Shown ui.app hs) : Shown ui.disconnect.app hs :=
  ⟨hshown.alone, nofun⟩

theorem Shown.step {d d' : Desktop} {e : Label} (hshown : Shown d.ui.app d.handlers)
    (hstep : Desktop.Step d e d') : Shown d'.ui.app d'.handlers := by
  cases hstep with
  | connect | disconnect | download => exact (shown_cons_iff id).mpr hshown
  | connectFailed => exact (shown_cons_iff id).mp hshown
  | install | remove => exact (shown_cons_iff id).mpr ((shown_cons_iff id).mp hshown)
  | setRoot => exact (shown_cons_iff id).mpr ((shown_cons_iff id).mp hshown)
  | removeNone | closed => exact ((shown_cons_iff id).mp hshown).disconnect
  | @sync slot sr n ui hs next jobId paths hidle hnext =>
    -- the flag says that no other synchronisation is going on
    have hs0 : hs.countP Handler.Syncs = 0 := hshown.alone.trans (by rw [hidle]; rfl)
    obtain ⟨-, hactive⟩ := (shown_idle_iff hs0).mp hshown
    subst hnext
    apply shown_nextPath hs0
    · rfl
    · exact hactive
  | take | refused | drop => exact hshown.goesOn _
  | resume hresume => exact hshown.resume hresume

theorem shown_of_run {es : List Label} {d : Desktop} (h : Run Desktop.Step .start es d) :
    Shown d.ui.app d.handlers := by
  induction h with
  | nil => exact ⟨rfl, nofun⟩
  | snoc _ hlast ih => exact ih.step hlast

end Queue

/-- **The queue shows what is going on.** In every state of the application there is at most
one synchronisation; while there is none, every job is complete or in error; and all jobs that
are not have the id of its current job. -/
theorem queue_shows_current {es : List Label} {d : Desktop}
    (h : Run Desktop.Step .start es d) :
    d.handlers.countP Handler.Syncs = d.ui.app.syncing.toNat ∧
      (d.ui.app.syncing = false → ∀ j ∈ d.ui.app.transfers, ¬ j.Active) ∧
      ∀ j ∈ d.ui.app.transfers, j.Active →
        ∃ rest command stage, .waiting (.sync j.id rest) command stage ∈ d.handlers := by
  have hshown := shown_of_run h
  refine ⟨hshown.alone, fun hidle => ?_, hshown.current⟩
  have hnone := hshown.alone
  rw [hidle] at hnone
  exact ((shown_idle_iff hnone).mp hshown).2

/-- A client is connected, and the synchronisation of a path begins while the file list is
loaded. -/
theorem run_syncing : Run Desktop.Step .start
    [.quiet, .put ⟨0, "a:9000", 4096, "r"⟩, .quiet, .quiet]
    ⟨some ⟨0, "a:9000", 4096, "r"⟩, "r", 1,
      ⟨true, true, ⟨[⟨"job", "f", .zeroCopy, 0, 0, 0, 0, .negotiating, none⟩], [], true⟩⟩,
      .waiting (.sync "job" []) (.negotiateFile "f") .called ::ₘ
        .waiting .load listAll .called ::ₘ 0⟩ :=
  (((Run.single (.connect "a:9000" 4096 "r")).snoc .install).snoc .setRoot).snoc
    (.sync "job" ["f"] rfl rfl)

theorem queue_shows_current_one : ∃ es d, Run Desktop.Step .start es d ∧
    d.ui.app.syncing = true ∧ d.handlers.countP Handler.Syncs = 1 :=
  ⟨_, _, run_syncing, rfl, (queue_shows_current run_syncing).1⟩

end AdaptiveSync
