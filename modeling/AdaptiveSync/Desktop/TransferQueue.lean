import AdaptiveSync.Desktop.ClientSlot
import AdaptiveSync.Server.Session

/-!
# The transfer queue of the desktop frontend

`handleSync` of `ui/src/App.tsx` goes through a list of paths. For each it puts a job into the
queue, calls `negotiate_file` and, unless nothing is to be transferred, `sync_file` of
`ui/src-tauri/src/main.rs`, and sets the job's status by what the calls come to. Every update
maps over the whole queue and changes the jobs with the id of the current one.

A transfer that fails does not reject `sync_file`: the command resolves with a `SyncResult`
whose `success` is false, which `handleSync` does not look at. So a job is complete once the
command has resolved (`SyncCall.Marked`), while the file has arrived only if the transfer
returned `Ok` (`SyncCall.Succeeded`). `queue_tells_truth_iff` says when the two are the same
for every job.
-/

namespace AdaptiveSync

/-! ### The commands -/

/-- The name of a file mode. -/
def FileMode.label : FileMode → String
  | .fresh => "FRESH"
  | .modified => "MODIFIED"
  | .unchanged => "UNCHANGED"
  | _ => "UNSPECIFIED"

/-- The name of a transfer mode. -/
def TransferMode.label : TransferMode → String
  | .zeroCopy => "ZERO_COPY"
  | .deltaSync => "DELTA_SYNC"
  | _ => "UNSPECIFIED"

/-- `NegotiationResult` as the frontend receives it. -/
structure NegotiationReply where
  fileMode : String
  transferMode : String
  serverFileSize : UInt64
  serverSha256 : String
  blockSize : UInt32
  deriving DecidableEq

/-- `SyncResult`. -/
structure SyncResult where
  success : Bool
  sha256 : String
  transferMode : String
  error : Option String
  deriving DecidableEq

/-- `negotiate_file`, with the slot it finds and what `negotiate` returns. An error is given by
its text. -/
def negotiateFile (slot : Option InstalledClient) (negotiated : Except String NegotiationResult) :
    Except String NegotiationReply := do
  let _ ← (ClientGuard.take slot "negotiate_file").1
  let result ← negotiated
  return ⟨result.fileMode.label, result.transferMode.label, result.serverFileSize,
    result.serverSha256, result.blockSize⟩

/-- What `sync_file` makes of the result of a transfer. -/
def SyncResult.of (result : Except String String) (transferMode : String) : SyncResult :=
  match result with
  | .ok hash => ⟨true, hash, transferMode, none⟩
  | .error e => ⟨false, "", transferMode, some e⟩

/-- `sync_file`, with the slot it finds and what `upload_file` and `delta_sync_upload`
return. -/
def syncFile (slot : Option InstalledClient) (uploaded deltaSynced : Except String String)
    (fileMode transferMode : String) : Except String SyncResult := do
  let _ ← (ClientGuard.take slot "sync_file").1
  if fileMode = "FRESH" then return .of uploaded transferMode
  else if fileMode = "MODIFIED" then
    let result := if transferMode = "DELTA_SYNC" then deltaSynced else uploaded
    return .of result transferMode
  else .error ("Unknown file mode: " ++ fileMode)

/-! ### The queue -/

/-- The transfer modes of a job. -/
inductive JobMode where
  | zeroCopy | deltaSync | unchanged
  deriving DecidableEq

/-- The statuses of a job. -/
inductive JobStatus where
  | pending | negotiating | transferring | complete | error
  deriving DecidableEq

/-- `TransferJob`. -/
structure TransferJob where
  id : String
  relativePath : String
  transferMode : JobMode
  bytesTransferred : ℕ
  bytesTotal : ℕ
  rateMbps : ℕ
  elapsedMs : ℕ
  status : JobStatus
  errorMessage : Option String
  deriving DecidableEq

/-- `FileEntry`, as `list_server_files` returns it. -/
structure FileEntry where
  relativePath : String
  fileSize : UInt64
  lastModifiedNs : UInt64
  sha256Hash : String
  fileMode : String
  deriving DecidableEq

/-- The state of `App` that `handleSync` works on. -/
structure App where
  transfers : List TransferJob
  files : List FileEntry
  /-- `syncingRef`. -/
  syncing : Bool

/-- One path of a synchronisation, and what the calls behind it come to: the clock and the
random number when its job is made, the slot that each command finds, what `negotiate`
returns, and what a transfer of either kind would return. -/
structure SyncCall where
  path : String
  now : ℕ
  random : String
  negotiateClient : Option InstalledClient
  negotiated : Except String NegotiationResult
  syncClient : Option InstalledClient
  uploaded : Except String String
  deltaSynced : Except String String

/-- The transfer mode shown for the one negotiated. -/
def jobMode (transferMode : String) : JobMode :=
  if transferMode = "ZERO_COPY" then .zeroCopy
  else if transferMode = "DELTA_SYNC" then .deltaSync
  else .unchanged

namespace SyncCall

variable (c : SyncCall)

/-- `jobId`. -/
def jobId : String := "job-" ++ toString c.now ++ "-" ++ c.random

/-- `newJob`. -/
def newJob : TransferJob := ⟨c.jobId, c.path, .zeroCopy, 0, 0, 0, 0, .negotiating, none⟩

/-- The call of `negotiate_file`. -/
def negotiate : Except String NegotiationReply := negotiateFile c.negotiateClient c.negotiated

/-- The call of `sync_file`. -/
def sync (reply : NegotiationReply) : Except String SyncResult :=
  syncFile c.syncClient c.uploaded c.deltaSynced reply.fileMode reply.transferMode

end SyncCall

/-- `setTransfers` with a map over the jobs that changes those with this id. -/
def setJob (id : String) (f : TransferJob → TransferJob) (transfers : List TransferJob) :
    List TransferJob :=
  transfers.map fun j => if j.id = id then f j else j

/-- The handler of a call that was rejected. -/
def TransferJob.fail (err : String) (j : TransferJob) : TransferJob :=
  { j with status := .error, errorMessage := some err }

/-- The body of the loop over the paths. -/
def syncPath (transfers : List TransferJob) (c : SyncCall) : List TransferJob :=
  let transfers := transfers ++ [c.newJob]
  match c.negotiate with
  | .error err => setJob c.jobId (.fail err) transfers
  | .ok result =>
    let mode := jobMode result.transferMode
    let transfers := setJob c.jobId
      (fun j => { j with transferMode := mode, status := .transferring }) transfers
    if mode = .unchanged then setJob c.jobId (fun j => { j with status := .complete }) transfers
    else
      match c.sync result with
      | .error err => setJob c.jobId (.fail err) transfers
      -- the result of the command is dropped, and `success` with it
      | .ok _ => setJob c.jobId
          (fun j => { j with status := .complete, bytesTransferred := j.bytesTotal }) transfers

/-- `handleSync`, with what `list_server_files` returns at its end. -/
def handleSync (app : App) (calls : List SyncCall) (listed : Except String (List FileEntry)) :
    App :=
  if app.syncing then app
  else
    let transfers := calls.foldl syncPath app.transfers
    match listed with
    | .ok files => { app with transfers := transfers, files := files }
    | .error _ => { app with transfers := transfers }

/-! ### What a status says and what it should say -/

namespace SyncCall

variable (c : SyncCall)

/-- The transfer that `sync_file` runs: none when the client is not there, or when the file
mode calls for none. -/
def transfer (reply : NegotiationReply) : Option (Except String String) :=
  if jobMode reply.transferMode = .unchanged ∨ c.syncClient = none then none
  else if reply.fileMode = "FRESH" then some c.uploaded
  else if reply.fileMode = "MODIFIED" then
    some (if reply.transferMode = "DELTA_SYNC" then c.deltaSynced else c.uploaded)
  else none

/-- The negotiation reported that the file is unchanged, or the transfer returned `Ok`. -/
def Succeeded : Prop :=
  ∃ reply, c.negotiate = .ok reply ∧
    (reply.fileMode = "UNCHANGED" ∨ ∃ hash, c.transfer reply = some (.ok hash))

/-- The job is marked complete: the negotiation named no transfer, or `sync_file` resolved. -/
def Marked : Prop :=
  ∃ reply, c.negotiate = .ok reply ∧
    (jobMode reply.transferMode = .unchanged ∨ (c.transfer reply).isSome)

/-- A transfer is named exactly for a file that is not unchanged, and the one that is run does
not fail. -/
def Honest : Prop :=
  ∀ reply, c.negotiate = .ok reply →
    (jobMode reply.transferMode = .unchanged ↔ reply.fileMode = "UNCHANGED") ∧
      ∀ err, c.transfer reply ≠ some (.error err)

end SyncCall

/-- The last of the paths whose job has this id. -/
def lastWithId (id : String) : List SyncCall → Option SyncCall
  | [] => none
  | c :: calls => (lastWithId id calls).or (if c.jobId = id then some c else none)

/-- **The queue tells the truth**: a call of `handleSync` that goes through puts a job into the
queue for each path, in order, and when it has finished, the job is complete exactly if the
negotiation reported `UNCHANGED` or the transfer returned `Ok`, and shows an error
otherwise. -/
def TellsTruth (app : App) (calls : List SyncCall) (listed : Except String (List FileEntry)) :
    Prop :=
  let jobs := (handleSync app calls listed).transfers.drop app.transfers.length
  (app.syncing = false → jobs.map TransferJob.relativePath = calls.map SyncCall.path) ∧
    ∀ (k : ℕ) (job : TransferJob) (c : SyncCall), jobs[k]? = some job → calls[k]? = some c →
      (job.status = .complete ↔ c.Succeeded) ∧ (¬ c.Succeeded → job.status = .error)

/-! ### What the loop does to a job -/

/-- What the round of a path does to the jobs with its id. -/
def SyncCall.settle (c : SyncCall) (j : TransferJob) : TransferJob :=
  match c.negotiate with
  | .error err => j.fail err
  | .ok result =>
    let mode := jobMode result.transferMode
    if mode = .unchanged then { j with transferMode := mode, status := .complete }
    else
      match c.sync result with
      | .error err => { j with transferMode := mode }.fail err
      | .ok _ =>
        { j with transferMode := mode, status := .complete, bytesTransferred := j.bytesTotal }

/-- What the rounds of these paths do to a job. -/
def settleAll (calls : List SyncCall) (j : TransferJob) : TransferJob :=
  calls.foldl (fun j c => if j.id = c.jobId then c.settle j else j) j

/-- The jobs of the paths, when all rounds are over. -/
def settledJobs : List SyncCall → List TransferJob
  | [] => []
  | c :: calls => settleAll (c :: calls) c.newJob :: settledJobs calls

section Loop

variable {c : SyncCall} {calls : List SyncCall} {transfers : List TransferJob} {j : TransferJob}

/-- Of two updates under one id the second sees what the first has done. -/
theorem setJob_setJob {id : String} {f g : TransferJob → TransferJob}
    (hf : ∀ j, (f j).id = j.id) :
    setJob id g (setJob id f transfers) = setJob id (fun j => g (f j)) transfers := by
  unfold setJob
  rw [List.map_map]
  refine List.map_congr_left fun j _ => ?_
  by_cases hid : j.id = id
  · simp [hid, hf]
  · simp [hid]

@[simp] theorem SyncCall.settle_id : (c.settle j).id = j.id := by
  unfold SyncCall.settle TransferJob.fail
  dsimp only
  repeat' split
  all_goals rfl

@[simp] theorem SyncCall.settle_relativePath : (c.settle j).relativePath = j.relativePath := by
  unfold SyncCall.settle TransferJob.fail
  dsimp only
  repeat' split
  all_goals rfl

/-- One round. -/
theorem syncPath_eq :
    syncPath transfers c = setJob c.jobId c.settle (transfers ++ [c.newJob]) := by
  unfold syncPath SyncCall.settle
  cases c.negotiate with
  | error err => rfl
  | ok result =>
    simp only
    by_cases hmode : jobMode result.transferMode = .unchanged
    · simp only [hmode, if_true]
      exact setJob_setJob fun _ => rfl
    · simp only [hmode, if_false]
      cases c.sync result with
      | error err => exact setJob_setJob fun _ => rfl
      | ok r => exact setJob_setJob fun _ => rfl

/-- **The loop**: the jobs that were there, and one for each path, as all rounds leave them. -/
theorem foldl_syncPath (calls : List SyncCall) : ∀ transfers : List TransferJob,
    calls.foldl syncPath transfers = transfers.map (settleAll calls) ++ settledJobs calls := by
  induction calls with
  | nil =>
    intro transfers
    have hid : settleAll [] = id := rfl
    simp [settledJobs, hid]
  | cons c calls ih =>
    intro transfers
    calc (c :: calls).foldl syncPath transfers
        = calls.foldl syncPath (setJob c.jobId c.settle (transfers ++ [c.newJob])) :=
          congrArg (calls.foldl syncPath) syncPath_eq
      _ = (setJob c.jobId c.settle (transfers ++ [c.newJob])).map (settleAll calls) ++
            settledJobs calls := ih _
      _ = transfers.map (settleAll (c :: calls)) ++ settledJobs (c :: calls) := by
          simp [setJob, settledJobs, settleAll, Function.comp_def]

@[simp] theorem settleAll_relativePath :
    (settleAll calls j).relativePath = j.relativePath := by
  induction calls generalizing j with
  | nil => rfl
  | cons c calls ih =>
    change (settleAll calls (if j.id = c.jobId then c.settle j else j)).relativePath = _
    rw [ih]
    split
    · exact SyncCall.settle_relativePath
    · rfl

/-- Rounds under other ids leave a job alone. -/
theorem settleAll_of_none (h : lastWithId j.id calls = none) : settleAll calls j = j := by
  induction calls with
  | nil => rfl
  | cons c calls ih =>
    rw [lastWithId, Option.or_eq_none_iff] at h
    have hid : ¬ j.id = c.jobId := by
      intro hc
      rw [if_pos hc.symm] at h
      exact absurd h.2 (by simp)
    change settleAll calls (if j.id = c.jobId then c.settle j else j) = j
    rw [if_neg hid]
    exact ih h.1

/-- The status of a job is that of the last round under its id. -/
theorem exists_settle {d : SyncCall} (h : lastWithId j.id calls = some d) :
    ∃ j', (settleAll calls j).status = (d.settle j').status := by
  induction calls generalizing j with
  | nil => exact absurd h (by simp [lastWithId])
  | cons c calls ih =>
    change ∃ j', (settleAll calls (if j.id = c.jobId then c.settle j else j)).status = _
    have hid : (if j.id = c.jobId then c.settle j else j).id = j.id := by
      split
      · exact SyncCall.settle_id
      · rfl
    rw [lastWithId] at h
    cases hlater : lastWithId j.id calls with
    | some e =>
      rw [hlater, Option.some_or] at h
      obtain rfl := Option.some.inj h
      exact ih (hid.symm ▸ hlater)
    | none =>
      -- no later round is under this id
      rw [hlater, Option.none_or] at h
      split at h
      · next heq =>
        obtain rfl := Option.some.inj h
        rw [if_pos heq.symm, settleAll_of_none (by rw [SyncCall.settle_id]; exact hlater)]
        exact ⟨j, rfl⟩
      · exact absurd h (by simp)

/-- Each job of the call, as the rounds from its own on leave it. -/
theorem getElem?_settledJobs (k : ℕ) :
    (settledJobs calls)[k]? = calls[k]?.map fun c => settleAll (calls.drop k) c.newJob := by
  induction calls generalizing k with
  | nil => rfl
  | cons c calls ih =>
    cases k with
    | zero => rfl
    | succ k => simpa [settledJobs] using ih k

/-- A path is itself one of those with its id. -/
theorem exists_lastWithId {k : ℕ} (h : calls[k]? = some c) :
    ∃ d, lastWithId c.jobId (calls.drop k) = some d := by
  obtain ⟨hk, rfl⟩ := List.getElem?_eq_some_iff.mp h
  rw [List.drop_eq_getElem_cons hk, lastWithId, if_pos rfl]
  cases lastWithId (calls[k]).jobId (calls.drop (k + 1)) with
  | none => exact ⟨_, rfl⟩
  | some d => exact ⟨d, rfl⟩

theorem mem_of_lastWithId {id : String} {d : SyncCall} (h : lastWithId id calls = some d) :
    d ∈ calls ∧ d.jobId = id := by
  induction calls with
  | nil => exact absurd h (by simp [lastWithId])
  | cons c calls ih =>
    rw [lastWithId, Option.or_eq_some_iff] at h
    obtain h | ⟨-, h⟩ := h
    · exact ⟨List.mem_cons_of_mem c (ih h).1, (ih h).2⟩
    · split at h
      · next heq =>
        obtain rfl := Option.some.inj h
        exact ⟨List.mem_cons_self, heq⟩
      · exact absurd h (by simp)

end Loop

/-! ### What the commands come to -/

section Commands

variable {c : SyncCall} {j : TransferJob}

/-- When a transfer is named, `sync_file` resolves exactly when it runs one. -/
theorem sync_returns_iff {reply : NegotiationReply}
    (hmode : jobMode reply.transferMode ≠ .unchanged) :
    (c.sync reply).Returns ↔ (c.transfer reply).isSome := by
  unfold SyncCall.sync SyncCall.transfer syncFile
  cases c.syncClient with
  | none => simp [ClientGuard.take]
  | some client =>
    simp only [ClientGuard.take, hmode, reduceCtorEq, or_self, if_false, Except.ok_bind]
    split
    · simp
    split
    · simp
    · simp

/-- A round leaves a job complete or in error. -/
theorem status_settle : (c.settle j).status = .complete ∧ c.Marked ∨
    (c.settle j).status = .error ∧ ¬ c.Marked := by
  unfold SyncCall.settle SyncCall.Marked
  cases hreply : c.negotiate with
  | error err => exact .inr ⟨rfl, by simp⟩
  | ok reply =>
    simp only [Except.ok.injEq, exists_eq_left']
    by_cases hmode : jobMode reply.transferMode = .unchanged
    · simp [hmode]
    · have hreturns := @sync_returns_iff c reply hmode
      simp only [hmode, if_false, false_or, ← hreturns]
      cases c.sync reply with
      | error err => exact .inr ⟨rfl, by simp⟩
      | ok r => exact .inl ⟨rfl, by simp⟩

/-- **When a job is marked as it should be.** -/
theorem marked_iff_succeeded : (c.Marked ↔ c.Succeeded) ↔ c.Honest := by
  unfold SyncCall.Marked SyncCall.Succeeded SyncCall.Honest
  cases c.negotiate with
  | error err => simp
  | ok reply =>
    simp only [Except.ok.injEq, exists_eq_left', forall_eq']
    by_cases hmode : jobMode reply.transferMode = .unchanged
    · -- nothing is transferred, and the job is complete
      have hnone : c.transfer reply = none := if_pos (.inl hmode)
      simp [hmode, hnone]
    by_cases hsame : reply.fileMode = "UNCHANGED"
    · -- the command is called for a file that is unchanged, and rejects it
      have hnone : c.transfer reply = none := by
        simp [SyncCall.transfer, hsame]
      simp [hmode, hsame, hnone]
    · cases c.transfer reply with
      | none => simp [hmode, hsame]
      | some r =>
        cases r with
        | error err => simp [hmode, hsame]
        | ok hash => simp [hmode, hsame]

end Commands

section Truth

variable {app : App} {calls : List SyncCall} {listed : Except String (List FileEntry)}

/-- The jobs a call of `handleSync` puts into the queue. -/
theorem drop_transfers_handleSync (h : app.syncing = false) :
    (handleSync app calls listed).transfers.drop app.transfers.length = settledJobs calls := by
  have htransfers : (handleSync app calls listed).transfers =
      app.transfers.map (settleAll calls) ++ settledJobs calls := by
    rw [handleSync, h, ← foldl_syncPath]
    cases listed <;> rfl
  rw [htransfers, List.drop_left' (by simp)]

theorem map_relativePath_settledJobs (calls : List SyncCall) :
    (settledJobs calls).map TransferJob.relativePath = calls.map SyncCall.path := by
  induction calls with
  | nil => rfl
  | cons c calls ih =>
    rw [settledJobs, List.map_cons, List.map_cons, ih, settleAll_relativePath]
    rfl

/-- What is shown for a path is what the last path under its job's id was marked as. -/
theorem tellsTruth_iff (h : app.syncing = false) :
    TellsTruth app calls listed ↔ ∀ (k : ℕ) (c d : SyncCall), calls[k]? = some c →
      lastWithId c.jobId (calls.drop k) = some d → (d.Marked ↔ c.Succeeded) := by
  unfold TellsTruth
  simp only [drop_transfers_handleSync h]
  constructor
  · rintro ⟨-, hjobs⟩ k c d hc hd
    have hjob : (settledJobs calls)[k]? = some (settleAll (calls.drop k) c.newJob) := by
      rw [getElem?_settledJobs, hc]
      rfl
    obtain ⟨hcomplete, -⟩ := hjobs k _ c hjob hc
    obtain ⟨j, hstatus⟩ := exists_settle (j := c.newJob) hd
    rw [← hcomplete, hstatus]
    obtain ⟨hset, hmarked⟩ | ⟨hset, hmarked⟩ := @status_settle d j
    · exact iff_of_true hmarked hset
    · exact iff_of_false hmarked (by rw [hset]; simp)
  · intro hlast
    refine ⟨fun _ => map_relativePath_settledJobs calls, fun k job c hjob hc => ?_⟩
    rw [getElem?_settledJobs, hc] at hjob
    obtain rfl := Option.some.inj hjob
    obtain ⟨d, hd⟩ := exists_lastWithId hc
    obtain ⟨j, hstatus⟩ := exists_settle (j := c.newJob) hd
    rw [← hlast k c d hc hd, hstatus]
    obtain ⟨hset, hmarked⟩ | ⟨hset, hmarked⟩ := @status_settle d j
    · exact ⟨iff_of_true hset hmarked, fun hnot => absurd hmarked hnot⟩
    · exact ⟨iff_of_false (by rw [hset]; simp) hmarked, fun _ => hset⟩

/-- When no two jobs have the same id, the last path under the id of a job is its own. -/
theorem eq_of_nodup (hnodup : (calls.map SyncCall.jobId).Nodup) {k : ℕ} {c d : SyncCall}
    (hc : calls[k]? = some c) (hd : lastWithId c.jobId (calls.drop k) = some d) : d = c := by
  obtain ⟨hmem, hid⟩ := mem_of_lastWithId hd
  exact List.inj_on_of_nodup_map hnodup (List.mem_of_mem_drop hmem) (List.mem_of_getElem? hc) hid

end Truth

/-- **When the queue tells the truth.** For every queue, every list of paths and every
assignment of outcomes to the calls behind them, the queue tells the truth exactly when the
last path under each job's id is marked as the job's path should be, or the call is ignored
because another one is going on. If no two jobs have the same id, this is when every path is
honest. -/
theorem queue_tells_truth_iff (app : App) (calls : List SyncCall)
    (listed : Except String (List FileEntry)) :
    (TellsTruth app calls listed ↔ app.syncing = true ∨
      ∀ (k : ℕ) (c d : SyncCall), calls[k]? = some c →
        lastWithId c.jobId (calls.drop k) = some d → (d.Marked ↔ c.Succeeded)) ∧
    ((calls.map SyncCall.jobId).Nodup →
      (TellsTruth app calls listed ↔ app.syncing = true ∨ ∀ c ∈ calls, c.Honest)) := by
  cases hbusy : app.syncing with
  | true =>
    -- the call adds nothing to the queue
    have hnothing : TellsTruth app calls listed := by
      have hsame : handleSync app calls listed = app := if_pos hbusy
      simp [TellsTruth, hsame, hbusy]
    simp [hnothing]
  | false =>
    simp only [Bool.false_eq_true, false_or]
    refine ⟨tellsTruth_iff hbusy, fun hnodup => ?_⟩
    rw [tellsTruth_iff hbusy]
    constructor
    · intro hlast c hmem
      obtain ⟨k, hk⟩ := List.mem_iff_getElem?.mp hmem
      obtain ⟨d, hd⟩ := exists_lastWithId hk
      have hmarked := hlast k c d hk hd
      rw [eq_of_nodup hnodup hk hd] at hmarked
      exact marked_iff_succeeded.mp hmarked
    · intro hhonest k c d hc hd
      rw [eq_of_nodup hnodup hc hd]
      exact marked_iff_succeeded.mpr (hhonest c (List.mem_of_getElem? hc))

/-- A path whose transfer comes to this, on a connected client. -/
def freshCall (uploaded : Except String String) : SyncCall where
  path := "f"
  now := 0
  random := "a"
  negotiateClient := some ⟨0, "", 4096, ""⟩
  negotiated := .ok ⟨.fresh, .zeroCopy, 0, "", 4096⟩
  syncClient := some ⟨0, "", 4096, ""⟩
  uploaded := uploaded
  deltaSynced := .error ""

/-- A new file that is uploaded is shown as complete. -/
theorem tellsTruth_uploaded : TellsTruth ⟨[], [], false⟩ [freshCall (.ok "")] (.ok []) := by
  refine ((queue_tells_truth_iff _ _ _).2 (by simp)).mpr (.inr ?_)
  intro c hc
  obtain rfl := List.mem_singleton.mp hc
  refine marked_iff_succeeded.mp (iff_of_true ?_ ?_)
  · exact ⟨_, rfl, .inr rfl⟩
  · exact ⟨_, rfl, .inr ⟨"", rfl⟩⟩

/-- A new file whose upload fails is shown as complete too. -/
theorem not_tellsTruth_failed_upload :
    ¬ TellsTruth ⟨[], [], false⟩ [freshCall (.error "Connection lost")] (.ok []) := by
  rw [tellsTruth_iff rfl]
  intro hlast
  have hmarked := hlast 0 (freshCall (.error "Connection lost")) _ rfl rfl
  -- the command has resolved, and its transfer has failed
  obtain ⟨-, hnone⟩ := marked_iff_succeeded.mp hmarked ⟨"FRESH", "ZERO_COPY", 0, "", 4096⟩ rfl
  exact hnone "Connection lost" rfl

end AdaptiveSync
