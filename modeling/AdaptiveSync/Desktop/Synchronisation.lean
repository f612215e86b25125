import AdaptiveSync.Desktop.Handlers
import AdaptiveSync.Protocol.Transfers

/-!
# A synchronisation from end to end

`handleSync` of the frontend, the commands it calls, the operations of the client behind them,
and the session at the other end, as one program against one machine (`syncAll`). The
frontend is given the text of an error, and `text` stands for how errors are printed.

Each path is negotiated. A file that the server does not have is uploaded, one that it has is
left alone, and one that differs is synchronised block by block. The first two always arrive,
the third when its transfer ends and leaves nothing out but zeros. So the files of a queue all
arrive, and all jobs are complete, exactly when this is so for each that differs
(`queue_delivers_iff`): what an operation leaves on the connection does not disturb those
after it, and no transfer touches the files of another.

Files that have arrived are not sent again (`second_sync_sends_nothing`), and any client can
download them, unless they are empty (`synced_file_downloads`).
-/

namespace AdaptiveSync

open Fs Duplex

/-! ### The program -/

/-- A path of a synchronisation: the disk that its commands find, and the clock and the random
number when its job is made. -/
structure SyncEntry where
  path : String
  disk : FileSystem
  now : ℕ
  random : String

section Program

variable (env : Env) (cl : TcpClient) (client : InstalledClient) (text : ClientError → String)

/-- The body of the loop: `negotiate_file`, and `sync_file` unless nothing is to be
transferred. What comes of a transfer that is not run does not matter. -/
def syncEntry (e : SyncEntry) : Prog SyncCall :=
  (cl.negotiate env.proto env.sha256 e.disk e.path).bind fun negotiated =>
    let call : SyncCall := ⟨e.path, e.now, e.random, some client, negotiated.mapError text,
      some client, .error "", .error ""⟩
    let upload := (cl.uploadFile env.proto env.sha256 e.disk e.path).bind fun r =>
      .ret { call with uploaded := r.mapError text }
    match call.negotiate with
    | .error _ => .ret call
    | .ok reply =>
      if jobMode reply.transferMode = .unchanged then .ret call
      else if reply.fileMode = "FRESH" then upload
      else if reply.fileMode = "MODIFIED" then
        if reply.transferMode = "DELTA_SYNC" then
          (cl.deltaSyncUpload env.proto env.sha256 e.disk e.path).bind fun r =>
            .ret { call with deltaSynced := r.mapError text }
        else upload
      else .ret call

/-- The loop. -/
def syncEntries : List SyncEntry → Prog (List SyncCall)
  | [] => .ret []
  | e :: es => (syncEntry env cl client text e).bind fun call =>
      (syncEntries es).bind fun calls => .ret (call :: calls)

/-- **`handleSync`** on a connected client. -/
def syncAll (app : App) (entries : List SyncEntry) : Prog App :=
  if app.syncing then .ret app
  else (syncEntries env cl client text entries).bind fun calls =>
    (cl.listServerFiles env.proto "" true).bind fun listed =>
      .ret (handleSync app calls (listServerFiles (some client) (listed.mapError text)))

end Program

/-! ### What it should come to -/

/-- An entry, with what the file is on both sides: its content, the text its path resolves to
on the server, and what the server has there. -/
structure SyncFile extends SyncEntry where
  content : Bytes
  target : LexPath.Text
  stored : Option Bytes

namespace SyncFile

variable (f : SyncFile) (b : UInt32)

/-- What a transfer that ends leaves on the server. -/
def left : Bytes :=
  match f.stored with
  | none => f.content
  | some s => if s = f.content then s else committed b f.content s

/-- A file that the server has and that differs is one whose transfer ends. -/
def Ends : Prop := ∀ s, f.stored = some s → s ≠ f.content → Finishes b f.content s

/-- And it leaves nothing out but zeros. -/
def Arrives : Prop :=
  ∀ s, f.stored = some s → s ≠ f.content → Finishes b f.content s ∧ UnsentZero b f.content s

/-- It arrives exactly when what is left is the file. -/
theorem arrives_iff {f : SyncFile} {b : UInt32} (hb : b ≠ 0) (hends : f.Ends b) :
    f.Arrives b ↔ f.left b = f.content := by
  unfold Arrives left
  cases hs : f.stored with
  | none => simp
  | some s =>
    by_cases heq : s = f.content
    · simp [heq]
    · have hfin := hends s hs heq
      simp [heq, hfin, committed_eq_iff hb hfin]

/-- The client has the file, and no two contents that are compared have the same hash. -/
structure Known (env : Env) (cl : TcpClient) : Prop where
  readable : cl.fileOps.Readable f.disk f.path f.content
  engine_readable : cl.deltaEngine.fileOps.Readable f.disk f.path f.content
  hash_ne : env.sha256 f.content ≠ ""
  hash_injective : ∀ s, f.stored = some s → env.sha256 f.content = env.sha256 s → s = f.content
  no_collision : ∀ s, f.stored = some s → NoCollision env.sha256 b.toNat f.content s
  stored_lt : ∀ s, f.stored = some s → s.length < maxOffset

end SyncFile

/-- A connected client whose parts all use the block size `b`. -/
structure Paired (cl : TcpClient) (b : UInt32) : Prop where
  blockSize_ne : b ≠ 0
  connected : cl.connected = true
  blockSize : cl.blockSize = b
  engine_blockSize : cl.deltaEngine.fileOps.blockSize = b

/-- The files of the one are none of the other's, and are not directories above them. -/
def SyncFile.Independent (fs : FileSystem) (f g : SyncFile) : Prop :=
  Clear fs f.target g.target ∧ Clear fs g.target f.target

/-- The call's job ends as complete. -/
def SyncCall.Completes (c : SyncCall) : Prop := ∀ j, (c.settle j).status = .complete

/-! ### One path -/

section Entry

variable {env : Env} {cl : TcpClient} {client : InstalledClient} {text : ClientError → String}
  {b : UInt32} {f : SyncFile} {l : Link Server WireFrame Sent Accepted}

theorem negotiationRequest_hash (hread : cl.fileOps.Readable f.disk f.path f.content) :
    (cl.negotiationRequest env.sha256 f.disk f.path).clientSha256Hash = env.sha256 f.content := by
  simp [TcpClient.negotiationRequest, FileOps.sha256File, hread.readAll, Except.toOption]

/-- What the negotiator answers: nothing is to be done, or which transfer is. -/
theorem negotiate_of_holds (n : Negotiator) {fs : FileSystem} (hknown : f.Known b env cl)
    (hholds : env.fm.Holds fs f.path f.target f.stored) :
    ∃ r, n.negotiate env.sha256 env.fm fs f.path (env.sha256 f.content) = .ok r ∧
      match f.stored with
      | none => r.fileMode = .fresh ∧ r.transferMode = .zeroCopy
      | some s => if s = f.content then r.fileMode = .unchanged ∧ r.transferMode = .unspecified
          else r.fileMode = .modified ∧ r.transferMode = .deltaSync := by
  cases hs : f.stored with
  | none =>
    rw [hs] at hholds
    have hstat := hholds.writable.stat_of_none hholds.node
    have hexists : env.fm.fileExists fs f.path = .ok false := by
      simp [FileManager.fileExists, hholds.resolves, existsOrThrow, hstat]
    refine ⟨⟨.fresh, .zeroCopy, 0, "", n.blockSize⟩, ?_, rfl, rfl⟩
    simp [Negotiator.negotiate, hexists]
    rfl
  | some s =>
    rw [hs] at hholds
    refine ⟨_, negotiate_of_file n _ hholds.ready_of_file hholds.node, ?_⟩
    by_cases heq : s = f.content
    · simp [heq, hknown.hash_ne]
    · have hne : ¬ env.sha256 f.content = env.sha256 s :=
        fun hc => heq (hknown.hash_injective s hs hc)
      simp [heq, hne]

/-- The call of a path whose negotiation was answered. -/
def SyncEntry.answered (client : InstalledClient) (e : SyncEntry) (r : NegotiationResult)
    (uploaded deltaSynced : Except String String) : SyncCall :=
  ⟨e.path, e.now, e.random, some client, .ok r, some client, uploaded, deltaSynced⟩

section Settle

variable {e : SyncEntry} {r : NegotiationResult} {uploaded deltaSynced : Except String String}

theorem settle_unchanged (hr : r.transferMode = .unspecified) (j : TransferJob) :
    (e.answered client r uploaded deltaSynced).settle j =
      { j with transferMode := .unchanged, status := .complete } := by
  simp [SyncCall.settle, SyncEntry.answered, SyncCall.negotiate, negotiateFile, ClientGuard.take,
    hr, TransferMode.label, jobMode]

theorem completes_of_transfer
    (hr : r.fileMode = .fresh ∧ r.transferMode = .zeroCopy ∨
      r.fileMode = .modified ∧ r.transferMode = .deltaSync) :
    (e.answered client r uploaded deltaSynced).Completes := by
  intro j
  obtain ⟨hfile, htransfer⟩ | ⟨hfile, htransfer⟩ := hr <;>
    simp [SyncCall.settle, SyncEntry.answered, SyncCall.negotiate, SyncCall.sync, negotiateFile,
      syncFile, ClientGuard.take, hfile, htransfer, FileMode.label, TransferMode.label, jobMode]

end Settle

section Exec

variable {e : SyncEntry} {l₁ l₂ : Link Server WireFrame Sent Accepted} {r : NegotiationResult}

/-- Nothing is to be transferred. -/
theorem exec_syncEntry_unchanged
    (hneg : exec (machine env) Sent.view (cl.negotiate env.proto env.sha256 e.disk e.path) l =
      ⟨.ret (.ok r), l₁⟩) (hr : r.transferMode = .unspecified) :
    exec (machine env) Sent.view (syncEntry env cl client text e) l =
      ⟨.ret (e.answered client r (.error "") (.error "")), l₁⟩ := by
  rw [syncEntry, exec_bind_of_ret hneg]
  simp [SyncCall.negotiate, negotiateFile, ClientGuard.take, Except.mapError, hr,
    TransferMode.label, jobMode, exec, SyncEntry.answered]

/-- The file is uploaded. -/
theorem exec_syncEntry_fresh
    (hneg : exec (machine env) Sent.view (cl.negotiate env.proto env.sha256 e.disk e.path) l =
      ⟨.ret (.ok r), l₁⟩) (hfile : r.fileMode = .fresh) (hr : r.transferMode = .zeroCopy) :
    exec (machine env) Sent.view (syncEntry env cl client text e) l =
      exec (machine env) Sent.view
        ((cl.uploadFile env.proto env.sha256 e.disk e.path).bind fun r' =>
          .ret (e.answered client r (r'.mapError text) (.error ""))) l₁ := by
  rw [syncEntry, exec_bind_of_ret hneg]
  simp [SyncCall.negotiate, negotiateFile, ClientGuard.take, Except.mapError, hfile, hr,
    FileMode.label, TransferMode.label, jobMode, SyncEntry.answered]

/-- The file is synchronised block by block. -/
theorem exec_syncEntry_modified
    (hneg : exec (machine env) Sent.view (cl.negotiate env.proto env.sha256 e.disk e.path) l =
      ⟨.ret (.ok r), l₁⟩) (hfile : r.fileMode = .modified) (hr : r.transferMode = .deltaSync) :
    exec (machine env) Sent.view (syncEntry env cl client text e) l =
      exec (machine env) Sent.view
        ((cl.deltaSyncUpload env.proto env.sha256 e.disk e.path).bind fun r' =>
          .ret (e.answered client r (.error "") (r'.mapError text))) l₁ := by
  rw [syncEntry, exec_bind_of_ret hneg]
  simp [SyncCall.negotiate, negotiateFile, ClientGuard.take, Except.mapError, hfile, hr,
    FileMode.label, TransferMode.label, jobMode, SyncEntry.answered]

end Exec

/-- What a delta sync finds after the negotiation. -/
theorem setup_of_holds {c : Bytes} (hpaired : Paired cl b) (h : Resting b l)
    (hknown : f.Known b env cl) (hs : f.stored = some c)
    (hholds : env.fm.Holds l.server.fs f.path f.target (some c)) :
    Setup env cl f.disk l.server f.path f.target b f.content c where
  blockSize_ne := hpaired.blockSize_ne
  connected := hpaired.connected
  blockSize := hpaired.blockSize
  engine_blockSize := hpaired.engine_blockSize
  readable := hknown.readable
  engine_readable := hknown.engine_readable
  idle := h.idle.waiting
  up := h.idle.up
  negotiated := h.negotiated
  ready := hholds.ready_of_file
  stored := hholds.node
  stored_lt := hknown.stored_lt c hs
  no_scratch := hholds.no_scratch (by simp)
  no_collision := hknown.no_collision c hs

/-- What a path leaves behind: a session that waits for the next request, a call whose job is
complete, and the file. -/
structure EntryDone (env : Env) (b : UInt32) (f : SyncFile) (fs : FileSystem) (call : SyncCall)
    (l : Link Server WireFrame Sent Accepted) : Prop where
  resting : Resting b l
  path : call.path = f.path
  completes : call.Completes
  holds : env.fm.Holds l.server.fs f.path f.target (some (f.left b))
  wrote : l.server.fs = fs ∨ FileManager.Commits fs l.server.fs f.target (f.left b)
  /-- Nothing is written for a file that the server has. -/
  unchanged : f.stored = some f.content →
    l.server.fs = fs ∧ ∀ j, (call.settle j).transferMode = .unchanged

/-- **One path**, when its transfer ends. -/
theorem exec_syncEntry (hpaired : Paired cl b) (h : Resting b l) (hknown : f.Known b env cl)
    (hholds : env.fm.Holds l.server.fs f.path f.target f.stored) (hends : f.Ends b) :
    ∃ call l', exec (machine env) Sent.view (syncEntry env cl client text f.toSyncEntry) l =
        ⟨.ret call, l'⟩ ∧ EntryDone env b f l.server.fs call l' := by
  obtain ⟨r, hneg, hr⟩ := negotiate_of_holds l.server.session.negotiator hknown hholds
  rw [← negotiationRequest_hash hknown.readable] at hneg
  obtain ⟨l₁, hnegotiated, hrest, hnil, hfs⟩ := h.exec_negotiate hpaired.connected hneg
  rw [← hfs] at hholds ⊢
  cases hs : f.stored with
  | none =>
    -- an upload
    rw [hs] at hr hholds
    obtain ⟨hfile, htransfer⟩ := hr
    obtain ⟨l₂, hexec, hrest₂, hholds₂, hcommits⟩ := hrest.exec_uploadFile hpaired.connected hnil
      hknown.readable hholds.toPlaced
    refine ⟨_, l₂, (exec_syncEntry_fresh hnegotiated hfile htransfer).trans
      (exec_bind_of_ret hexec _), ?_⟩
    have hleft : f.left b = f.content := by simp [SyncFile.left, hs]
    exact ⟨hrest₂, rfl, completes_of_transfer (.inl ⟨hfile, htransfer⟩), hleft ▸ hholds₂,
      .inr (hleft ▸ hcommits), fun hc => absurd (hs.symm.trans hc) (by simp)⟩
  | some c =>
    rw [hs] at hr hholds
    dsimp only at hr
    by_cases heq : c = f.content
    · -- nothing is to be done
      rw [if_pos heq] at hr
      refine ⟨_, l₁, exec_syncEntry_unchanged hnegotiated hr.2, ?_⟩
      have hleft : f.left b = c := by simp [SyncFile.left, hs, heq]
      refine ⟨hrest, rfl, fun j => ?_, hleft ▸ hholds, .inl rfl, fun _ => ⟨rfl, fun j => ?_⟩⟩
      · rw [settle_unchanged hr.2]
      · rw [settle_unchanged hr.2]
    · -- a delta sync
      rw [if_neg heq] at hr
      obtain ⟨hfile, htransfer⟩ := hr
      obtain ⟨l₂, hexec, hrest₂, hholds₂, hcommits⟩ := hrest.exec_deltaSyncUpload hnil
        (setup_of_holds hpaired hrest hknown hs hholds) hholds.toPlaced (hends c hs heq)
      refine ⟨_, l₂, (exec_syncEntry_modified hnegotiated hfile htransfer).trans
        (exec_bind_of_ret hexec _), ?_⟩
      have hleft : f.left b = committed b f.content c := by simp [SyncFile.left, hs, heq]
      exact ⟨hrest₂, rfl, completes_of_transfer (.inr ⟨hfile, htransfer⟩), hleft ▸ hholds₂,
        .inr (hleft ▸ hcommits), fun hc => absurd (Option.some.inj (hs.symm.trans hc)) heq⟩

/-- A path whose transfer does not end blocks what follows it. -/
theorem exec_syncEntry_stuck (hpaired : Paired cl b) (h : Resting b l)
    (hknown : f.Known b env cl)
    (hholds : env.fm.Holds l.server.fs f.path f.target f.stored) (hends : ¬ f.Ends b)
    (call : SyncCall) :
    (exec (machine env) Sent.view (syncEntry env cl client text f.toSyncEntry) l).client ≠
      .ret call := by
  obtain ⟨c, hs, heq, hfin⟩ : ∃ c, f.stored = some c ∧ c ≠ f.content ∧
      ¬ Finishes b f.content c := by
    simpa [SyncFile.Ends] using hends
  obtain ⟨r, hneg, hr⟩ := negotiate_of_holds l.server.session.negotiator hknown hholds
  rw [← negotiationRequest_hash hknown.readable] at hneg
  obtain ⟨l₁, hnegotiated, hrest, hnil, hfs⟩ := h.exec_negotiate hpaired.connected hneg
  rw [← hfs, hs] at hholds
  simp only [hs, heq, if_false] at hr
  rw [exec_syncEntry_modified hnegotiated hr.1 hr.2]
  intro hret
  obtain ⟨r', l₂, hexec, -⟩ := exec_bind_eq_ret (congrArg (Config.mk · _) hret)
  exact hrest.exec_deltaSyncUpload_stuck hnil (setup_of_holds hpaired hrest hknown hs hholds)
    hfin r' (congrArg Config.client hexec)

end Entry

/-! ### All paths -/

section Queue

variable {env : Env} {cl : TcpClient} {client : InstalledClient} {text : ClientError → String}
  {b : UInt32} {files : List SyncFile} {l : Link Server WireFrame Sent Accepted}

theorem clear_congr {fs fs' : FileSystem} (h : fs'.os = fs.os) (t t' : LexPath.Text) :
    Clear fs' t t' ↔ Clear fs t t' := by
  rw [Clear, Clear, FileSystem.locate_congr h]

theorem EntryDone.os {f : SyncFile} {fs : FileSystem} {call : SyncCall}
    (h : EntryDone env b f fs call l) : l.server.fs.os = fs.os := by
  obtain hsame | hcommits := h.wrote
  · rw [hsame]
  · exact hcommits.grows.os

/-- A path leaves the files beside its own as they are. -/
theorem EntryDone.beside {f : SyncFile} {fs : FileSystem} {call : SyncCall} {p : String}
    {t : LexPath.Text} {s : Option Bytes} (h : EntryDone env b f fs call l)
    (hholds : env.fm.Holds fs p t s) (hclear : Clear fs f.target t)
    (hclear' : Clear fs t f.target) : env.fm.Holds l.server.fs p t s := by
  obtain hsame | hcommits := h.wrote
  · exact hsame ▸ hholds
  · exact hholds.beside hcommits h.holds.plain h.holds.leaf hclear hclear'

/-- What the files of a queue are before it is run. -/
structure QueueReady (env : Env) (cl : TcpClient) (b : UInt32) (files : List SyncFile)
    (fs : FileSystem) : Prop where
  known : ∀ f ∈ files, f.Known b env cl
  holds : ∀ f ∈ files, env.fm.Holds fs f.path f.target f.stored
  independent : files.Pairwise (SyncFile.Independent fs)

theorem QueueReady.tail {f : SyncFile} {fs : FileSystem} {call : SyncCall}
    (h : QueueReady env cl b (f :: files) fs) (hdone : EntryDone env b f fs call l) :
    QueueReady env cl b files l.server.fs := by
  obtain ⟨hfirst, hrest⟩ := List.pairwise_cons.mp h.independent
  refine ⟨fun g hg => h.known g (List.mem_cons_of_mem f hg), fun g hg => ?_, ?_⟩
  · obtain ⟨hclear, hclear'⟩ := hfirst g hg
    exact hdone.beside (h.holds g (List.mem_cons_of_mem f hg)) hclear hclear'
  · refine hrest.imp fun {g g'} hind => ?_
    rwa [SyncFile.Independent, clear_congr hdone.os, clear_congr hdone.os]

/-- And each file that the server does not have is small enough to be sent. It goes out in one
frame, and `read_frame` gives up on raw data of `2 ^ 32` bytes and more. -/
structure QueueSendable (env : Env) (cl : TcpClient) (b : UInt32) (files : List SyncFile)
    (fs : FileSystem) : Prop extends QueueReady env cl b files fs where
  frame_lt : ∀ f ∈ files, f.stored = none → f.content.length < 2 ^ 32

/-- What a queue leaves behind. -/
structure QueueDone (env : Env) (b : UInt32) (files : List SyncFile) (fs : FileSystem)
    (calls : List SyncCall) (l : Link Server WireFrame Sent Accepted) : Prop where
  resting : Resting b l
  os : l.server.fs.os = fs.os
  paths : calls.map SyncCall.path = files.map fun f => f.path
  completes : ∀ call ∈ calls, call.Completes
  holds : ∀ f ∈ files, env.fm.Holds l.server.fs f.path f.target (some (f.left b))
  beside : ∀ p t s, env.fm.Holds fs p t s →
    (∀ f ∈ files, Clear fs f.target t ∧ Clear fs t f.target) → env.fm.Holds l.server.fs p t s
  unchanged : (∀ f ∈ files, f.stored = some f.content) →
    l.server.fs = fs ∧ ∀ call ∈ calls, ∀ j, (call.settle j).transferMode = .unchanged

/-- The first path and the rest. -/
theorem QueueDone.cons {f : SyncFile} {fs : FileSystem} {call : SyncCall} {calls : List SyncCall}
    {l₁ : Link Server WireFrame Sent Accepted} (hready : QueueReady env cl b (f :: files) fs)
    (hdone : EntryDone env b f fs call l₁)
    (hrest : QueueDone env b files l₁.server.fs calls l) :
    QueueDone env b (f :: files) fs (call :: calls) l where
  resting := hrest.resting
  os := hrest.os.trans hdone.os
  paths := by rw [List.map_cons, List.map_cons, hdone.path, hrest.paths]
  completes := List.forall_mem_cons.mpr ⟨hdone.completes, hrest.completes⟩
  holds := by
    refine List.forall_mem_cons.mpr ⟨?_, hrest.holds⟩
    refine hrest.beside _ _ _ hdone.holds fun g hg => ?_
    obtain ⟨hclear, hclear'⟩ := (List.pairwise_cons.mp hready.independent).1 g hg
    rw [clear_congr hdone.os, clear_congr hdone.os]
    exact ⟨hclear', hclear⟩
  beside p t s hholds hclear := by
    obtain ⟨⟨hfirst, hfirst'⟩, hothers⟩ := List.forall_mem_cons.mp hclear
    refine hrest.beside p t s (hdone.beside hholds hfirst hfirst') fun g hg => ?_
    rw [clear_congr hdone.os, clear_congr hdone.os]
    exact hothers g hg
  unchanged hsame := by
    obtain ⟨hfirst, hothers⟩ := List.forall_mem_cons.mp hsame
    obtain ⟨hfs₁, hmode₁⟩ := hdone.unchanged hfirst
    obtain ⟨hfs, hmode⟩ := hrest.unchanged hothers
    exact ⟨hfs.trans hfs₁, List.forall_mem_cons.mpr ⟨hmode₁, hmode⟩⟩

/-- **All paths**, when their transfers end. -/
theorem exec_syncEntries (hpaired : Paired cl b) (files : List SyncFile) :
    ∀ {l : Link Server WireFrame Sent Accepted}, Resting b l →
      QueueReady env cl b files l.server.fs → (∀ f ∈ files, f.Ends b) →
      ∃ calls l', exec (machine env) Sent.view
          (syncEntries env cl client text (files.map SyncFile.toSyncEntry)) l =
            ⟨.ret calls, l'⟩ ∧ QueueDone env b files l.server.fs calls l' := by
  induction files with
  | nil =>
    intro l hrest hready hends
    exact ⟨[], l, rfl, hrest, rfl, rfl, fun _ hc => absurd hc List.not_mem_nil,
      fun _ hf => absurd hf List.not_mem_nil, fun _ _ _ hholds _ => hholds,
      fun _ => ⟨rfl, fun _ hc => absurd hc List.not_mem_nil⟩⟩
  | cons f files ih =>
    intro l hrest hready hends
    obtain ⟨call, l₁, hexec₁, hdone⟩ := @exec_syncEntry env cl client text b f l hpaired hrest
      (hready.known f List.mem_cons_self) (hready.holds f List.mem_cons_self)
      (hends f List.mem_cons_self)
    obtain ⟨calls, l', hexec, hrest'⟩ := ih hdone.resting (hready.tail hdone)
      fun g hg => hends g (List.mem_cons_of_mem f hg)
    refine ⟨call :: calls, l', ?_, hrest'.cons hready hdone⟩
    rw [List.map_cons, syncEntries, exec_bind_of_ret hexec₁, exec_bind_of_ret hexec]
    rfl

/-- A transfer that does not end keeps the loop from ending. -/
theorem exec_syncEntries_stuck (hpaired : Paired cl b) (files : List SyncFile) :
    ∀ {l : Link Server WireFrame Sent Accepted}, Resting b l →
      QueueReady env cl b files l.server.fs → (∃ f ∈ files, ¬ f.Ends b) →
      ∀ calls, (exec (machine env) Sent.view
        (syncEntries env cl client text (files.map SyncFile.toSyncEntry)) l).client ≠
          .ret calls := by
  induction files with
  | nil => exact fun _ _ ⟨f, hf, _⟩ => absurd hf (by simp)
  | cons f files ih =>
    intro l hrest hready hstuck calls hret
    rw [List.map_cons, syncEntries] at hret
    obtain ⟨call, l₁, hexec₁, hexec⟩ := exec_bind_eq_ret (congrArg (Config.mk · _) hret)
    have hknown := hready.known f List.mem_cons_self
    have hholds := hready.holds f List.mem_cons_self
    by_cases hends : f.Ends b
    · -- the loop gets to the next path
      obtain ⟨call', l₂, hexec₂, hdone⟩ := @exec_syncEntry env cl client text b f l hpaired hrest
        hknown hholds hends
      obtain ⟨-, rfl⟩ := Config.mk.inj (hexec₂.symm.trans hexec₁)
      obtain ⟨calls', l₃, hrest', -⟩ := exec_bind_eq_ret hexec
      obtain ⟨g, hg, hgends⟩ := hstuck
      obtain rfl | hg := List.mem_cons.mp hg
      · exact hgends hends
      · exact ih hdone.resting (hready.tail hdone) ⟨g, hg, hgends⟩ calls'
          (congrArg Config.client hrest')
    · exact exec_syncEntry_stuck hpaired hrest hknown hholds hends call
        (congrArg Config.client hexec₁)

end Queue

/-! ### The jobs -/

section Jobs

variable {calls : List SyncCall} {j : TransferJob}

theorem settleAll_cons (c : SyncCall) (calls : List SyncCall) (j : TransferJob) :
    settleAll (c :: calls) j = settleAll calls (if j.id = c.jobId then c.settle j else j) := rfl

/-- What every round of the loop makes of a job it makes of it in the end. -/
theorem forall_settleAll {P : TransferJob → Prop} (hP : ∀ c ∈ calls, ∀ j, P (c.settle j))
    (hj : P j) : P (settleAll calls j) := by
  induction calls generalizing j with
  | nil => exact hj
  | cons c calls ih =>
    rw [settleAll_cons]
    refine ih (fun c' hc' => hP c' (List.mem_cons_of_mem c hc')) ?_
    split
    · exact hP c List.mem_cons_self j
    · exact hj

theorem forall_settledJobs {P : TransferJob → Prop} (hP : ∀ c ∈ calls, ∀ j, P (c.settle j)) :
    ∀ j ∈ settledJobs calls, P j := by
  induction calls with
  | nil => exact fun _ hj => absurd hj List.not_mem_nil
  | cons c calls ih =>
    have hrest : ∀ c' ∈ calls, ∀ j, P (c'.settle j) :=
      fun c' hc' => hP c' (List.mem_cons_of_mem c hc')
    refine List.forall_mem_cons.mpr ⟨?_, ih hrest⟩
    -- the job has the id of its own call
    rw [settleAll_cons, if_pos (show c.newJob.id = c.jobId from rfl)]
    exact forall_settleAll hrest (hP c List.mem_cons_self _)

/-- The jobs that have come into the queue. -/
def newJobs (app app' : App) : List TransferJob := app'.transfers.drop app.transfers.length

end Jobs

/-! ### The whole -/

/-- Every configuration of a synchronisation of the files. -/
def SyncAllReach (env : Env) (cl : TcpClient) (client : InstalledClient)
    (text : ClientError → String) (app : App) (files : List SyncFile) (srv : Server) :
    Config Server WireFrame Sent WireFrame Accepted App → Prop :=
  Reach (machine env) Sent.view
    ⟨syncAll env cl client text app (files.map SyncFile.toSyncEntry), Link.start srv⟩

/-- The synchronisation ends, with a complete job for each file, in order, and with each file
on the server. -/
def QueueDelivers (env : Env) (cl : TcpClient) (client : InstalledClient)
    (text : ClientError → String) (app : App) (files : List SyncFile) (srv : Server) : Prop :=
  ∀ cfg, SyncAllReach env cl client text app files srv cfg → Terminal (machine env) Sent.view cfg →
    ∃ app', cfg.client = .ret app' ∧
      (newJobs app app').map TransferJob.relativePath = files.map (fun f => f.path) ∧
      (∀ j ∈ newJobs app app', j.status = .complete) ∧
      ∀ f ∈ files, cfg.link.server.fs.node (cfg.link.server.fs.locate f.target) =
        some (.file f.content)

section Whole

variable {env : Env} {cl : TcpClient} {client : InstalledClient} {text : ClientError → String}
  {b : UInt32} {app : App} {files : List SyncFile} {srv : Server}

/-- The whole of it, when all transfers end. -/
theorem exec_syncAll (hpaired : Paired cl b) (hrest : Resting b (Link.start srv))
    (hready : QueueReady env cl b files srv.fs) (hsyncing : app.syncing = false)
    (hends : ∀ f ∈ files, f.Ends b) :
    ∃ app' calls l l', exec (machine env) Sent.view
        (syncAll env cl client text app (files.map SyncFile.toSyncEntry)) (Link.start srv) =
          ⟨.ret app', l'⟩ ∧
      newJobs app app' = settledJobs calls ∧ QueueDone env b files srv.fs calls l ∧
      l'.server.fs = l.server.fs := by
  obtain ⟨calls, l, hexec, hdone⟩ :=
    @exec_syncEntries env cl client text b hpaired files _ hrest hready hends
  obtain ⟨r, l', hlisted, hfs⟩ :=
    @Resting.exec_listServerFiles env cl b "" l hdone.resting hpaired.connected true
  refine ⟨handleSync app calls (listServerFiles (some client) (r.mapError text)), calls, l, l', ?_,
    drop_transfers_handleSync hsyncing, hdone, hfs⟩
  rw [syncAll, hsyncing, if_neg (by simp), exec_bind_of_ret hexec, exec_bind_of_ret hlisted]
  rfl

/-- A queue whose files arrive is delivered. -/
theorem queueDelivers_of_arrives (hpaired : Paired cl b) (hrest : Resting b (Link.start srv))
    (hready : QueueReady env cl b files srv.fs) (hsyncing : app.syncing = false)
    (harrives : ∀ f ∈ files, f.Arrives b) : QueueDelivers env cl client text app files srv := by
  intro cfg hreach hterm
  have hends : ∀ f ∈ files, f.Ends b := fun f hf s hs hne => (harrives f hf s hs hne).1
  obtain ⟨app', calls, l, l', hexec, hjobs, hdone, hfs⟩ := @exec_syncAll env cl client text b app
    files srv hpaired hrest hready hsyncing hends
  rw [eq_exec_of_terminal (settled_start env srv) hreach hterm, hexec]
  refine ⟨app', rfl, ?_, ?_, fun f hf => ?_⟩
  · rw [hjobs, map_relativePath_settledJobs, hdone.paths]
  · rw [hjobs]
    exact forall_settledJobs hdone.completes
  · rw [hfs, (hdone.holds f hf).node_target,
      (SyncFile.arrives_iff hpaired.blockSize_ne (hends f hf)).mp (harrives f hf)]

/-- **Which queues arrive.** In every interleaving a synchronisation ends with a complete job
for each file and with each file on the server, exactly when each file that the server has in
another version is one whose delta sync ends and leaves nothing out but zeros. -/
theorem queue_delivers_iff (hpaired : Paired cl b) (hrest : Resting b (Link.start srv))
    (hsendable : QueueSendable env cl b files srv.fs) (hsyncing : app.syncing = false) :
    QueueDelivers env cl client text app files srv ↔ ∀ f ∈ files, f.Arrives b := by
  have hsettled := settled_start env srv
  have hready := hsendable.toQueueReady
  by_cases hends : ∀ f ∈ files, f.Ends b
  · obtain ⟨app', calls, l, l', hexec, -, hdone, hfs⟩ := @exec_syncAll env cl client text b app
      files srv hpaired hrest hready hsyncing hends
    have hleft : ∀ f ∈ files,
        l'.server.fs.node (l'.server.fs.locate f.target) = some (.file (f.left b)) := by
      intro f hf
      rw [hfs]
      exact (hdone.holds f hf).node_target
    constructor
    · intro hdelivers f hf
      obtain ⟨-, -, -, -, hfiles⟩ :=
        hdelivers _ (exec_reach _ hsettled) (exec_terminal _ hsettled)
      rw [hexec] at hfiles
      refine (SyncFile.arrives_iff hpaired.blockSize_ne (hends f hf)).mpr ?_
      have hnode := (hleft f hf).symm.trans (hfiles f hf)
      simpa using hnode
    · exact queueDelivers_of_arrives hpaired hrest hready hsyncing
  · -- a transfer that does not end keeps the loop from ending
    have hstuck : ∃ f ∈ files, ¬ f.Ends b := by simpa using hends
    refine iff_of_false (fun hdelivers => ?_) fun harrives => hends fun f hf s hs hne =>
      (harrives f hf s hs hne).1
    obtain ⟨app', hret, -⟩ := hdelivers _ (exec_reach _ hsettled) (exec_terminal _ hsettled)
    rw [syncAll, hsyncing, if_neg (by simp)] at hret
    obtain ⟨calls, l, hcalls, -⟩ := exec_bind_eq_ret (congrArg (Config.mk · _) hret)
    exact exec_syncEntries_stuck hpaired files hrest hready hstuck calls
      (congrArg Config.client hcalls)

/-- A file of one byte, which the server has or has not. -/
def sampleFile (stored : Option Bytes) : SyncFile :=
  ⟨⟨"f", FileSystem.single ['c'] ['f'] (some [1]), 0, "a"⟩, [1], "s/f".toList, stored⟩

theorem known_sample {stored : Option Bytes} (hstored : ∀ s, stored = some s → s = [1]) :
    (sampleFile stored).Known 4096 storageEnv (sampleClient 4096) where
  readable := readable_single 4096 (by decide)
  engine_readable := readable_single 4096 (by decide)
  hash_ne := sha256Hex_ne [1]
  hash_injective s hs _ := hstored s hs
  no_collision s hs := by
    rw [hstored s hs]
    exact fun _ _ _ _ => rfl
  stored_lt s hs := by
    rw [hstored s hs]
    decide

theorem ready_sample : QueueReady storageEnv (sampleClient 4096) 4096 [sampleFile none]
    (FileSystem.single ['s'] ['f'] none) := by
  have hnode : ∀ l, (FileSystem.single ['s'] ['f'] none).node l = some .dir ∨
      (FileSystem.single ['s'] ['f'] none).node l = none := by
    intro l
    rw [FileSystem.node_single]
    simp only [Option.map_none]
    split
    · exact .inl rfl
    · split <;> simp
  have hready := ready_single_none
  refine ⟨fun f hf => ?_, fun f hf => ?_, List.pairwise_singleton _ _⟩
  · rw [List.mem_singleton.mp hf]
    exact known_sample nofun
  · rw [List.mem_singleton.mp hf]
    exact {
      hready.placed (by decide) fun d _ => hnode d with
      node := (serves_single ⟨none, by simp⟩).node
      parent_dir := fun hc => absurd rfl hc
      no_scratch := fun hc => absurd rfl hc }

theorem paired_sample : Paired (sampleClient 4096) 4096 := ⟨by decide, rfl, rfl, rfl⟩

theorem resting_sample (fs : FileSystem) :
    Resting 4096 (Link.start ((Server.new 4096 fs).setState .ready)) :=
  ⟨⟨rfl, rfl⟩, rfl, rfl, nofun, Nat.succ_pos 99⟩

/-- A new file arrives. -/
theorem queue_delivers_one : QueueDelivers storageEnv (sampleClient 4096)
    ⟨0, "a:9000", 4096, "c"⟩ (fun _ => "error") ⟨[], [], false⟩ [sampleFile none]
    ((Server.new 4096 (FileSystem.single ['s'] ['f'] none)).setState .ready) :=
  (queue_delivers_iff paired_sample (resting_sample _)
    ⟨ready_sample, by simp [sampleFile]⟩ rfl).mpr (by simp [SyncFile.Arrives, sampleFile])

/-- What is the same about a file whenever it is synchronised. -/
def SyncFile.identity (f : SyncFile) : String × LexPath.Text × Bytes :=
  (f.path, f.target, f.content)

/-- The files are ready to be synchronised again. -/
theorem QueueDone.ready {cl' : TcpClient} {b' : UInt32} {again : List SyncFile} {fs : FileSystem}
    {calls : List SyncCall} {l : Link Server WireFrame Sent Accepted}
    (hdone : QueueDone env b files fs calls l) (hready : QueueReady env cl b files fs)
    (hleft : ∀ f ∈ files, f.left b = f.content)
    (hsame : again.map SyncFile.identity = files.map SyncFile.identity)
    (hstored : ∀ g ∈ again, g.stored = some g.content)
    (hknown : ∀ g ∈ again, g.Known b' env cl') : QueueReady env cl' b' again l.server.fs := by
  refine ⟨hknown, fun g hg => ?_, ?_⟩
  · obtain ⟨f, hf, hidentity⟩ : ∃ f ∈ files, f.identity = g.identity :=
      List.mem_map.mp (hsame ▸ List.mem_map_of_mem hg)
    obtain ⟨hpath, htarget, hcontent⟩ : f.path = g.path ∧ f.target = g.target ∧
        f.content = g.content := by simpa [SyncFile.identity] using hidentity
    have hholds := hdone.holds f hf
    rwa [hleft f hf, hpath, htarget, hcontent, ← hstored g hg] at hholds
  · -- independence is one of the targets
    have hpairs : ∀ gs : List SyncFile, gs.Pairwise (SyncFile.Independent l.server.fs) ↔
        (gs.map SyncFile.identity).Pairwise fun x y =>
          Clear fs x.2.1 y.2.1 ∧ Clear fs y.2.1 x.2.1 := by
      intro gs
      rw [List.pairwise_map]
      refine List.Pairwise.iff fun f g => ?_
      rw [SyncFile.Independent, clear_congr hdone.os, clear_congr hdone.os]
      rfl
    rw [hpairs, hsame, ← hpairs]
    refine hready.independent.imp fun {f g} hind => ?_
    rwa [SyncFile.Independent, clear_congr hdone.os, clear_congr hdone.os]

/-- **What has arrived is not sent again.** After a synchronisation whose files arrive, the
next one of the same files, by any client on any connection, ends with every job complete and
unchanged, and writes nothing. -/
theorem second_sync_sends_nothing (hpaired : Paired cl b) (hrest : Resting b (Link.start srv))
    (hready : QueueReady env cl b files srv.fs) (hsyncing : app.syncing = false)
    (harrives : ∀ f ∈ files, f.Arrives b) {cl' : TcpClient} {client' : InstalledClient}
    {text' : ClientError → String} {b' : UInt32} {app' : App} {again : List SyncFile}
    {srv' : Server} (hpaired' : Paired cl' b') (hrest' : Resting b' (Link.start srv'))
    (hsyncing' : app'.syncing = false)
    (hsame : again.map SyncFile.identity = files.map SyncFile.identity)
    (hstored : ∀ g ∈ again, g.stored = some g.content) (hknown : ∀ g ∈ again, g.Known b' env cl') :
    ∀ cfg, SyncAllReach env cl client text app files srv cfg →
      Terminal (machine env) Sent.view cfg → srv'.fs = cfg.link.server.fs →
    ∀ cfg', SyncAllReach env cl' client' text' app' again srv' cfg' →
      Terminal (machine env) Sent.view cfg' →
      ∃ app'', cfg'.client = .ret app'' ∧
        (newJobs app' app'').map TransferJob.relativePath = again.map (fun g => g.path) ∧
        (∀ j ∈ newJobs app' app'', j.status = .complete ∧ j.transferMode = .unchanged) ∧
        cfg'.link.server.fs = srv'.fs := by
  intro cfg hreach hterm hstore cfg' hreach' hterm'
  have hends : ∀ f ∈ files, f.Ends b := fun f hf s hs hne => (harrives f hf s hs hne).1
  have hleft : ∀ f ∈ files, f.left b = f.content := fun f hf =>
    (SyncFile.arrives_iff hpaired.blockSize_ne (hends f hf)).mp (harrives f hf)
  obtain ⟨app₁, calls, l, l', hexec, -, hdone, hfs⟩ := @exec_syncAll env cl client text b app files
    srv hpaired hrest hready hsyncing hends
  rw [eq_exec_of_terminal (settled_start env srv) hreach hterm, hexec] at hstore
  have hready' := hdone.ready hready hleft hsame hstored hknown
  rw [← hfs, ← hstore] at hready'
  -- every file is there, so every transfer ends
  have hends' : ∀ g ∈ again, g.Ends b' := fun g hg s hs hne =>
    absurd (Option.some.inj (hs.symm.trans (hstored g hg))) hne
  obtain ⟨app₂, calls', l₂, l₂', hexec', hjobs, hdone', hfs'⟩ := @exec_syncAll env cl' client' text'
    b' app' again srv' hpaired' hrest' hready' hsyncing' hends'
  obtain ⟨hunchanged, hmodes⟩ := hdone'.unchanged hstored
  rw [eq_exec_of_terminal (settled_start env srv') hreach' hterm', hexec']
  refine ⟨app₂, rfl, ?_, ?_, hfs'.trans hunchanged⟩
  · rw [hjobs, map_relativePath_settledJobs, hdone'.paths]
  · rw [hjobs]
    exact forall_settledJobs fun c hc j => ⟨hdone'.completes c hc j, hmodes c hc j⟩

/-- The new file is synchronised twice. -/
theorem second_sync_sends_nothing_one : ∃ cfg cfg',
    SyncAllReach storageEnv (sampleClient 4096) ⟨1, "a:9000", 4096, "c"⟩ (fun _ => "error")
      ⟨[], [], false⟩ [sampleFile none]
      ((Server.new 4096 (FileSystem.single ['s'] ['f'] none)).setState .ready) cfg ∧
    SyncAllReach storageEnv (sampleClient 4096) ⟨1, "a:9000", 4096, "c"⟩ (fun _ => "error")
      ⟨[], [], false⟩ [sampleFile (some [1])]
      ((Server.new 4096 cfg.link.server.fs).setState .ready) cfg' ∧
    cfg'.link.server.fs = cfg.link.server.fs := by
  have hruns : ∀ file fs, ∃ cfg, SyncAllReach storageEnv (sampleClient 4096)
      ⟨1, "a:9000", 4096, "c"⟩ (fun _ => "error") ⟨[], [], false⟩ [file]
      ((Server.new 4096 fs).setState .ready) cfg ∧
      Terminal (machine storageEnv) Sent.view cfg := fun file fs =>
    ⟨_, exec_reach _ (settled_start _ _), exec_terminal _ (settled_start _ _)⟩
  obtain ⟨cfg, hreach, hterm⟩ := hruns (sampleFile none) (FileSystem.single ['s'] ['f'] none)
  obtain ⟨cfg', hreach', hterm'⟩ := hruns (sampleFile (some [1])) cfg.link.server.fs
  have hsame : [sampleFile (some [1])].map SyncFile.identity =
      [sampleFile none].map SyncFile.identity := rfl
  have hstored : ∀ g ∈ [sampleFile (some [1])], g.stored = some g.content := by simp [sampleFile]
  have hknown : ∀ g ∈ [sampleFile (some [1])], g.Known 4096 storageEnv (sampleClient 4096) := by
    simpa using known_sample (by simp)
  obtain ⟨app'', -, -, -, hfs⟩ := second_sync_sends_nothing paired_sample (resting_sample _)
    ready_sample rfl (by simp [SyncFile.Arrives, sampleFile]) paired_sample (resting_sample _) rfl
    hsame hstored hknown cfg hreach hterm rfl cfg' hreach' hterm'
  exact ⟨cfg, cfg', hreach, hreach', hfs⟩

/-- **What one client synchronises another one downloads.** After a synchronisation whose files
arrive, a download of one of them, by any client on any connection, ends in every interleaving
with the same bytes on the local disk, exactly when there are any. -/
theorem synced_file_downloads (hpaired : Paired cl b) (hrest : Resting b (Link.start srv))
    (hready : QueueReady env cl b files srv.fs) (hsyncing : app.syncing = false)
    (harrives : ∀ f ∈ files, f.Arrives b) {f : SyncFile} (hf : f ∈ files) {cl' : TcpClient}
    {disk : FileSystem} {srv' : Server} (hconn : cl'.connected = true) (hidle : Idle srv')
    (hwritable : cl'.fileOps.Writable disk f.path f.content) :
    ∀ cfg, SyncAllReach env cl client text app files srv cfg →
      Terminal (machine env) Sent.view cfg → srv'.fs = cfg.link.server.fs →
    ((∀ cfg', DownloadReach env cl' disk srv' f.path cfg' →
        Terminal (machine env) Sent.view cfg' →
          ∃ disk', cfg'.client = .ret (.ok (env.sha256 f.content), disk') ∧
            disk'.stat (cl'.fileOps.resolvePath f.path) = .file f.content) ↔ f.content ≠ []) := by
  intro cfg hreach hterm hstore
  have hends : ∀ f ∈ files, f.Ends b := fun f hf s hs hne => (harrives f hf s hs hne).1
  obtain ⟨app₁, calls, l, l', hexec, -, hdone, hfs⟩ := @exec_syncAll env cl client text b app files
    srv hpaired hrest hready hsyncing hends
  -- every interleaving ends as the synchronisation alone does
  rw [eq_exec_of_terminal (settled_start env srv) hreach hterm, hexec] at hstore
  have hholds := hdone.holds f hf
  rw [(SyncFile.arrives_iff hpaired.blockSize_ne (hends f hf)).mp (harrives f hf), ← hfs,
    ← hstore] at hholds
  have hlt := (hready.known f hf).readable.length_lt
  have hoffers : Offers env.fm srv'.fs f.path f.target ⟨some f.content, by simpa using hlt⟩ :=
    ⟨hholds.resolves, by simp, by simpa using hholds.ready_of_file.legible hholds.node⟩
  have hsetup : DownloadSetup env cl' disk srv' f.path ⟨some f.content, by simpa using hlt⟩ := by
    refine ⟨hconn, hidle, fun t ht => ?_, fun hno => absurd ⟨_, hholds.resolves⟩ hno,
      by simpa using hwritable⟩
    obtain rfl : f.target = t := Except.ok.inj (hholds.resolves.symm.trans ht)
    exact hoffers
  have hsettled := settled_start env srv'
  constructor
  · rintro hdownloads hempty
    -- an empty file is not sent, and the client waits for its header
    have hrefused := hoffers.refused (by simp [hempty])
    obtain ⟨⟨k, hk⟩, -⟩ := exec_download_refused hconn hidle rfl rfl hrefused (l := Link.start srv')
    obtain ⟨disk', hret, -⟩ := hdownloads _ (exec_reach _ hsettled) (exec_terminal _ hsettled)
    exact absurd (hk.symm.trans hret) (by simp)
  · intro hne cfg' hreach' hterm'
    obtain ⟨disk', l₂, hdownload, hstat⟩ := hsetup.served rfl hne
    rw [eq_exec_of_terminal hsettled hreach' hterm', hdownload]
    exact ⟨disk', rfl, hstat⟩

/-- The new file is downloaded by a client that does not have it. -/
theorem synced_file_downloads_one : ∃ cfg,
    SyncAllReach storageEnv (sampleClient 4096) ⟨1, "a:9000", 4096, "c"⟩ (fun _ => "error")
      ⟨[], [], false⟩ [sampleFile none]
      ((Server.new 4096 (FileSystem.single ['s'] ['f'] none)).setState .ready) cfg ∧
    ∀ cfg', DownloadReach storageEnv (sampleClient 4096) (FileSystem.single ['c'] ['f'] none)
        (Server.new 4096 cfg.link.server.fs) "f" cfg' →
      Terminal (machine storageEnv) Sent.view cfg' →
        ∃ disk', cfg'.client = .ret (.ok (storageEnv.sha256 [1]), disk') ∧
          disk'.stat "c/f".toList = .file [1] := by
  have hsettled := settled_start storageEnv
    ((Server.new 4096 (FileSystem.single ['s'] ['f'] none)).setState .ready)
  have hwritable : (sampleClient 4096).fileOps.Writable (FileSystem.single ['c'] ['f'] none) "f"
      [1] := ⟨FileSystem.quiet_of_calm rfl, rfl⟩
  obtain ⟨cfg, hreach, hterm⟩ : ∃ cfg, SyncAllReach storageEnv (sampleClient 4096)
      ⟨1, "a:9000", 4096, "c"⟩ (fun _ => "error") ⟨[], [], false⟩ [sampleFile none]
      ((Server.new 4096 (FileSystem.single ['s'] ['f'] none)).setState .ready) cfg ∧
      Terminal (machine storageEnv) Sent.view cfg :=
    ⟨_, exec_reach _ hsettled, exec_terminal _ hsettled⟩
  have hidle : Idle (Server.new 4096 cfg.link.server.fs) := ⟨rfl, rfl⟩
  refine ⟨cfg, hreach, ?_⟩
  exact (synced_file_downloads paired_sample (resting_sample _) ready_sample rfl
    (by simp [SyncFile.Arrives, sampleFile]) (List.mem_singleton_self (sampleFile none)) rfl
    hidle hwritable cfg hreach hterm rfl).mpr (by simp [sampleFile])

end Whole

end AdaptiveSync
