import AdaptiveSync.Protocol.DeltaRun

/-!
# Premature finalisation

A client may send any frames in any order. The session finalises the file of a path when a
block for it arrives that is shorter than the negotiated block size, whatever was requested
and whatever has arrived before; `in_progress_` records the indices received and is never
consulted.

`Ledger` keeps, beside a run of a session, what a correct finalisation would have to look
at: for each path the indices of the last request sent for it, with the file size and the
block size the client announced, and the indices received since with a matching hash. It
also lists the paths whose file was replaced while an index was missing. Which spellings
count as one path is a parameter `key`: the string itself, or the file it resolves to.

A session finalises in one situation only (`finalized_imp`): the block is short and its
hash matches. So a run in which such a block comes last (`Orderly`) has no premature
finalisation, and a run in which it comes early has one.
-/

namespace AdaptiveSync

open Fs Blocks

/-! ### Finalisation -/

namespace DeltaSyncHandler

variable {sha256 : Bytes → String} {fm : FileManager}

/-- A block that finalises a file was declared final, and its hash matched. -/
theorem finalized_imp {h : DeltaSyncHandler} {fs : FileSystem} {p : String} {i : UInt32}
    {offset : UInt64} {data : Bytes} {hash : String} {final : Bool}
    (hfin : (h.handleBlockData sha256 fm fs p i offset data hash final).finalized = true) :
    final = true ∧ sha256 data = hash := by
  unfold handleBlockData at hfin
  split at hfin
  · exact absurd hfin (by simp)
  · next hhash =>
    refine ⟨?_, not_not.mp hhash⟩
    split at hfin
    · exact absurd hfin (by simp)
    · exact absurd hfin (by simp)
    · -- the block was written: only a final one goes on to the rename
      cases final with
      | false => exact absurd hfin (by simp)
      | true => rfl

end DeltaSyncHandler

/-! ### The ledger -/

/-- What the server asked for, and the sizes the client announced with it. -/
structure Asked where
  indices : List UInt32
  fileSize : UInt64
  blockSize : UInt32

/-- The index lies inside the announced file. -/
def Asked.Inside (a : Asked) (i : UInt32) : Prop :=
  i.toNat * a.blockSize.toNat < a.fileSize.toNat

/-- What happened on the session so far, path by path. -/
structure Ledger (K : Type) where
  /-- The last request sent for a path. -/
  asked : K → Option Asked
  /-- The indices received since, with a matching hash. -/
  received : K → Finset UInt32
  /-- The paths whose file was replaced while an index was missing, first to last. -/
  premature : List K

variable {K : Type}

/-- Nothing has happened. -/
def Ledger.empty : Ledger K := ⟨fun _ => none, fun _ => ∅, []⟩

/-- Every index of the last request for `p` that lies inside the file has been received. -/
def Ledger.Complete (led : Ledger K) (p : K) : Prop :=
  ∀ a ∈ led.asked p, ∀ i ∈ a.indices, a.Inside i → i ∈ led.received p

instance (a : Asked) (i : UInt32) : Decidable (a.Inside i) := inferInstanceAs (Decidable (_ < _))

instance (led : Ledger K) (p : K) : Decidable (led.Complete p) :=
  inferInstanceAs (Decidable (∀ a ∈ led.asked p, ∀ i ∈ a.indices, a.Inside i → i ∈ led.received p))

section Steps

variable [DecidableEq K] (key : String → K) (env : Env) (srv : Server)

/-- The frame is a signature request that the session handles next. -/
def signaturesIn (frame : WireFrame) : Option DeltaSyncSignatureRequest :=
  if srv.uploading = false ∧ frame.messageType = MessageType.deltaSyncSignatureRequest.code then
    env.proto.deltaSyncSignatureRequest.decode frame.payload
  else none

/-- The frame is a block that the session handles next. -/
def blockIn (frame : WireFrame) : Option DeltaSyncBlockData :=
  if srv.uploading = false ∧ frame.messageType = MessageType.deltaSyncBlockData.code then
    env.proto.deltaSyncBlockData.decode frame.payload
  else none

/-- A request was sent for `p`. -/
def Ledger.ask (led : Ledger K) (p : K) (a : Asked) : Ledger K :=
  { led with
    asked := Function.update led.asked p (some a)
    received := Function.update led.received p ∅ }

/-- A block for `p` came with a matching hash. -/
def Ledger.receive (led : Ledger K) (p : K) (i : UInt32) : Ledger K :=
  { led with received := Function.update led.received p (insert i (led.received p)) }

/-- The file of `p` was replaced. -/
def Ledger.replace (led : Ledger K) (p : K) : Ledger K :=
  if led.Complete p then led else { led with premature := led.premature ++ [p] }

/-- Enter one frame into the ledger: a request that is sent, a block that is received, a
file that is replaced. -/
def Ledger.next (led : Ledger K) (frame : WireFrame) : Ledger K :=
  match signaturesIn env srv frame with
  | some req =>
    match DeltaSyncHandler.handleSignatureRequest env.sha256 env.fm srv.fs req.relativePath
        req.fileSize req.blockSize (req.signatures.map fun sig =>
          ⟨sig.blockIndex, sig.rollingHash, sig.strongHash, sig.blockOffset, sig.blockSize⟩) with
    | .ok r => led.ask (key r.relativePath) ⟨r.requestedIndices, req.fileSize, req.blockSize⟩
    | .error _ => led
  | none =>
    match blockIn env srv frame with
    | none => led
    | some d =>
      let led' :=
        if env.sha256 d.data = d.strongHash then led.receive (key d.relativePath) d.blockIndex
        else led
      if (mergeOf env srv d).finalized then led'.replace (key d.relativePath) else led'

end Steps

/-! ### The ledger follows the session -/

section Follows

variable {env : Env} {srv : Server} {frame : WireFrame}

/-- The request entered is the one the session sends. -/
theorem step_of_signaturesIn {req : DeltaSyncSignatureRequest} {r : DeltaBlockRequest}
    (hin : signaturesIn env srv frame = some req)
    (hr : DeltaSyncHandler.handleSignatureRequest env.sha256 env.fm srv.fs req.relativePath
      req.fileSize req.blockSize (req.signatures.map fun sig =>
        ⟨sig.blockIndex, sig.rollingHash, sig.strongHash, sig.blockOffset, sig.blockSize⟩) =
          .ok r) :
    (Server.step env srv frame).2 = [.frame (message env.proto.deltaSyncBlockRequest
      .deltaSyncBlockRequest ⟨r.relativePath, r.requestedIndices⟩)] := by
  unfold signaturesIn at hin
  split at hin
  · next h =>
    rw [Server.step_of_idle h.1, Server.dispatch_signatureRequest h.2,
      Server.handleDeltaSyncSignatureRequest, hin]
    simp only [hr]
  · exact absurd hin (by simp)

/-- The block entered is merged into the disk of the session. -/
theorem step_of_blockIn {d : DeltaSyncBlockData} (hin : blockIn env srv frame = some d) :
    (Server.step env srv frame).1.fs = (mergeOf env srv d).fs := by
  unfold blockIn at hin
  split at hin
  · next h =>
    rw [Server.step_of_idle h.1, Server.dispatch_blockData h.2, Server.handleDeltaSyncBlockData,
      hin]
    -- every way out of the handler keeps the disk the merge left
    simp only
    repeat' split
    all_goals rfl
  · exact absurd hin (by simp)

end Follows

/-- The runs of a session whose frames all meet a condition, with their ledger. -/
inductive SessionRun [DecidableEq K] (key : String → K) (env : Env)
    (C : Server → Ledger K → WireFrame → Prop) (srv₀ : Server) : Server → Ledger K → Prop
  | start : SessionRun key env C srv₀ srv₀ .empty
  | frame {srv : Server} {led : Ledger K} (f : WireFrame) :
      SessionRun key env C srv₀ srv led → srv.crash = none → C srv led f →
        SessionRun key env C srv₀ (Server.step env srv f).1 (led.next key env srv f)

/-! ### Orderly runs -/

/-- A short block with a matching hash comes only when every other index requested inside
the file has come. -/
def Orderly (key : String → K) (env : Env) (srv : Server) (led : Ledger K) (frame : WireFrame) :
    Prop :=
  ∀ d, blockIn env srv frame = some d → srv.isFinal d.data = true →
    env.sha256 d.data = d.strongHash →
      ∀ a ∈ led.asked (key d.relativePath), ∀ i ∈ a.indices, a.Inside i →
        i ≠ d.blockIndex → i ∈ led.received (key d.relativePath)

section Orderly

variable [DecidableEq K] {key : String → K} {env : Env} {srv : Server} {led : Ledger K}
  {frame : WireFrame}

/-- The block that finalises completes the ledger. -/
theorem Orderly.complete (h : Orderly key env srv led frame) {d : DeltaSyncBlockData}
    (hd : blockIn env srv frame = some d) (hfinal : srv.isFinal d.data = true)
    (hhash : env.sha256 d.data = d.strongHash) :
    (led.receive (key d.relativePath) d.blockIndex).Complete (key d.relativePath) := by
  intro a ha i hi hin
  simp only [Ledger.receive, Function.update_self, Finset.mem_insert]
  -- the index is the one that has just come, or came before
  by_cases heq : i = d.blockIndex
  · exact Or.inl heq
  · exact Or.inr (h d hd hfinal hhash a ha i hi hin heq)

/-- An orderly frame finalises nothing prematurely. -/
theorem Orderly.premature_next (h : Orderly key env srv led frame) :
    (led.next key env srv frame).premature = led.premature := by
  unfold Ledger.next
  split
  · -- a signature request only opens an account
    split <;> rfl
  split
  · rfl
  · next d hd =>
    by_cases hfin : (mergeOf env srv d).finalized = true
    · obtain ⟨hfinal, hhash⟩ := DeltaSyncHandler.finalized_imp hfin
      simp only [hfin, if_true, if_pos hhash]
      rw [Ledger.replace, if_pos (h.complete hd hfinal hhash)]
      rfl
    · -- nothing is replaced
      simp only [if_neg hfin]
      split <;> rfl

end Orderly

/-- The client announces a file `f` of so many bytes, in blocks of 4096. -/
def announce (size : UInt64) : WireFrame :=
  message protobuf.deltaSyncSignatureRequest .deltaSyncSignatureRequest ⟨"f", size, 4096, []⟩

/-- The client sends data as block `i` of `f`. -/
def sendBlock (i : UInt32) (offset : UInt64) (data : Bytes) : WireFrame :=
  message protobuf.deltaSyncBlockData .deltaSyncBlockData ⟨"f", i, offset, data, sha256Hex data⟩

/-- A session on a store without `f`. -/
def freshServer : Server := Server.new 4096 (FileSystem.single ['s'] ['f'] none)

theorem handle_announce {size : UInt64} {k : UInt32} (hk : blockCount size 4096 = .ok k) :
    DeltaSyncHandler.handleSignatureRequest sha256Hex ⟨"s", by decide⟩ freshServer.fs "f" size
      4096 [] = .ok ⟨"f", indices 0 k⟩ := by
  have habsent : (FileManager.mk "s").fileExists freshServer.fs "f" = .ok false :=
    FileManager.fileExists_of_notFound ready_single_none.resolves
      (ready_single_none.stat_of_none (serves_single ⟨none, by simp⟩).node)
  unfold DeltaSyncHandler.handleSignatureRequest
  simp only [habsent, hk, Except.ok_bind]
  rfl

theorem signaturesIn_announce (size : UInt64) :
    signaturesIn storageEnv freshServer (announce size) = some ⟨"f", size, 4096, []⟩ := by
  rw [signaturesIn, if_pos ⟨rfl, rfl⟩]
  exact Codec.decode_encode _ _

theorem step_announce {size : UInt64} {k : UInt32} (hk : blockCount size 4096 = .ok k) :
    (Server.step storageEnv freshServer (announce size)).1 = freshServer.setState .ready := by
  have hdecode : storageEnv.proto.deltaSyncSignatureRequest.decode (announce size).payload =
      some ⟨"f", size, 4096, []⟩ := Codec.decode_encode _ _
  rw [Server.step_of_idle rfl, Server.dispatch_signatureRequest rfl,
    Server.handleDeltaSyncSignatureRequest, hdecode]
  have hreq : DeltaSyncHandler.handleSignatureRequest storageEnv.sha256 storageEnv.fm freshServer.fs
      "f" size 4096 [] = .ok ⟨"f", indices 0 k⟩ := handle_announce hk
  simp only [List.map_nil, hreq]

theorem next_announce {size : UInt64} {k : UInt32} (hk : blockCount size 4096 = .ok k) :
    Ledger.empty.next id storageEnv freshServer (announce size) =
      Ledger.empty.ask "f" ⟨indices 0 k, size, 4096⟩ := by
  have hreq : DeltaSyncHandler.handleSignatureRequest storageEnv.sha256 storageEnv.fm freshServer.fs
      "f" size 4096 [] = .ok ⟨"f", indices 0 k⟩ := handle_announce hk
  rw [Ledger.next, signaturesIn_announce]
  simp only [List.map_nil, hreq]
  rfl

theorem blockIn_sendBlock {srv : Server} (hidle : srv.uploading = false) (i : UInt32)
    (offset : UInt64) (data : Bytes) :
    blockIn storageEnv srv (sendBlock i offset data) =
      some ⟨"f", i, offset, data, sha256Hex data⟩ := by
  rw [blockIn, if_pos ⟨hidle, rfl⟩]
  exact Codec.decode_encode _ _

/-- The block is merged, and a short one finalises the file at once. -/
theorem next_sendBlock {srv : Server} {base : Bytes}
    (h : Merging storageEnv srv "f" "s/f".toList 4096 base) (led : Ledger String) (i : UInt32)
    {offset : UInt64} {data : Bytes} (hfits : offset.toNat + data.length < maxOffset) :
    led.next id storageEnv srv (sendBlock i offset data) =
      if data.length < 4096 then (led.receive "f" i).replace "f" else led.receive "f" i := by
  have hsig : signaturesIn storageEnv srv (sendBlock i offset data) = none :=
    if_neg fun h => absurd h.2 (by simp [sendBlock, message, MessageType.code])
  have hfinal : srv.isFinal data = decide (data.length < 4096) := by
    rw [Server.isFinal, h.negotiated]
    rfl
  have hmerge : (mergeOf storageEnv srv ⟨"f", i, offset, data, sha256Hex data⟩).finalized =
      decide (data.length < 4096) := by
    rw [mergeOf, hfinal]
    by_cases hshort : data.length < 4096
    · rw [decide_eq_true hshort]
      exact congrArg (·.finalized)
        (DeltaSyncHandler.handleBlockData_final_of_ready _ h.ready i hfits)
    · rw [decide_eq_false hshort]
      exact congrArg (·.finalized) (DeltaSyncHandler.handleBlockData_of_ready _ h.ready i hfits)
  rw [Ledger.next, hsig, blockIn_sendBlock h.idle]
  simp only [hmerge, decide_eq_true_eq]
  rw [if_pos (show storageEnv.sha256 data = sha256Hex data from rfl)]
  rfl

/-- Nothing of `f` has come yet. -/
theorem merging_fresh :
    ∃ base, Merging storageEnv (freshServer.setState .ready) "f" "s/f".toList 4096 base :=
  ⟨_, rfl, rfl, rfl, ready_single_none, rfl⟩

/-- A first block of zeros. -/
def zeroBlock : Bytes := List.replicate 4096 0

theorem length_zeroBlock : zeroBlock.length = 4096 := List.length_replicate

end AdaptiveSync
