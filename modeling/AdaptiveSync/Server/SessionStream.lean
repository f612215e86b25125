import AdaptiveSync.Server.Sockets
import AdaptiveSync.Server.Uploads

/-!
# A session on its socket

`Session::run` (`server/src/session.cpp`) reads its frames off a socket, in as many `recv`
calls as it takes, until a read fails. A read inside an upload that fails does not end the
session: the handler saves what it has if that is complete, and the loop reads on where the
failed read left the socket, and fails again.

`Server.runOn` is this loop, call by call, on all the bytes that the client sends before it
closes the connection, cut into pieces as the kernel likes. It handles the frames that are
complete, in order, and then the end of the connection: the loop on bytes refines
`Server.run` on frames (`runOn_of_readFrames`). What is left of a frame that is cut off is
never handled, so that an upload over a connection that breaks off is all or nothing
(`upload_all_or_nothing`).

Nothing handles `SIGPIPE`, and `send` is called without `MSG_NOSIGNAL`: an answer to a client
that no longer takes any ends the process in the middle of a handler. So the loop is given the
number of answers that the client's side takes (`room`), and stops at the first one beyond it.
-/

namespace AdaptiveSync

open BigEndian Drain Fs

namespace WireProtocol

/-! ### What a read takes -/

namespace Recv

variable {α β : Type}

/-- The reader takes no bytes back, and `n` of them when it succeeds. -/
def Takes (n len : ℕ) : Recv α → Prop
  | .waiting => True
  | .lost stream _ => stream.length ≤ len
  | .got _ stream _ => stream.length + n ≤ len

theorem Takes.mono {m n len : ℕ} {x : Recv α} (hx : x.Takes n len) (h : m ≤ n) :
    x.Takes m len := by
  cases x with
  | waiting => trivial
  | lost stream replies => exact hx
  | got a stream replies => exact (Nat.add_le_add_left h _).trans hx

theorem Takes.bind {n len : ℕ} {x : Recv α} {f : α → Bytes → List SysReply → Recv β}
    (hx : x.Takes n len) (hf : ∀ a stream replies, (f a stream replies).Takes 0 stream.length) :
    (x.bind f).Takes n len := by
  cases x with
  | waiting => trivial
  | lost stream replies => exact hx
  | got a stream replies =>
    have hfa := hf a stream replies
    simp only [Recv.bind]
    simp only [Takes] at hx
    cases hres : f a stream replies with
    | waiting => trivial
    | lost s r =>
      rw [hres] at hfa
      simp only [Takes] at hfa ⊢
      omega
    | got b s r =>
      rw [hres] at hfa
      simp only [Takes] at hfa ⊢
      omega

end Recv

theorem takes_recvExact (count : ℕ) (stream : Bytes) (replies : List SysReply) :
    (recvExact count stream replies).Takes count stream.length := by
  have happend := congrArg List.length (Loop.run_append (l := exactLoop) replies count stream)
  rw [List.length_append] at happend
  change (readExact count stream replies).moved.length +
    (readExact count stream replies).source.length = stream.length at happend
  unfold recvExact
  dsimp only
  cases hret : returned (readExact count stream replies) with
  | none => trivial
  | some n =>
    dsimp only
    split
    · next hn =>
      -- a read that returns the count has moved as much
      have hmoved : (readExact count stream replies).moved.length = count := by
        unfold returned at hret
        cases hs : (readExact count stream replies).status with
        | waiting => simp [hs] at hret
        | done | short =>
          simp only [hs] at hret
          exact Int.ofNat.inj ((Option.some.inj hret).trans hn)
        | failed =>
          simp only [hs, Option.some.injEq] at hret
          omega
      simp only [Recv.Takes]
      omega
    · simp only [Recv.Takes]
      omega

/-- A frame takes its header at least. -/
theorem takes_recvFrame (stream : Bytes) (replies : List SysReply) :
    (recvFrame stream replies).Takes FRAME_HEADER_SIZE stream.length := by
  have hpayload : ∀ (n : ℕ) (t : UInt8) (s : Bytes) (r : List SysReply),
      ((recvExact n s r).bind fun payload stream replies =>
        Recv.got (⟨t, payload⟩ : WireFrame) stream replies).Takes 0 s.length :=
    fun n _ s r => ((takes_recvExact n s r).mono (Nat.zero_le n)).bind fun _ _ _ => le_rfl
  unfold recvFrame
  refine (takes_recvExact _ _ _).bind fun hdr stream replies => ?_
  dsimp only
  split
  · refine ((takes_recvExact 8 stream replies).mono (Nat.zero_le 8)).bind
      fun rest stream replies => ?_
    cases decodeFrameHeader (hdr ++ rest) with
    | none => exact le_rfl
    | some header =>
      dsimp only
      split
      · exact hpayload _ _ _ _
      · exact le_rfl
  · split
    · exact hpayload _ _ _ _
    · exact le_rfl

end WireProtocol

/-! ### The loop -/

/-- What a session leaves behind when it has ended. -/
structure Aftermath where
  fs : FileSystem
  crash : Option Crash
  sent : List Sent

/-- Where a session on its socket is: in a read, at its end, or stopped for good in a `send`. -/
inductive OnSocket where
  | reading (srv : Server) (sent : List Sent)
  | over (a : Aftermath)
  | stopped (sent : List Sent)

/-- The same after `sent` has gone out. -/
def OnSocket.after (sent : List Sent) : OnSocket → OnSocket
  | .reading srv out => .reading srv (sent ++ out)
  | .over a => .over { a with sent := sent ++ a.sent }
  | .stopped out => .stopped (sent ++ out)

/-- A handler sends, and the session goes on if the client takes all of it. -/
def OnSocket.sends (room : ℕ) (out : List Sent) (rest : ℕ → OnSocket) : OnSocket :=
  if out.length ≤ room then (rest (room - out.length)).after out else .stopped (out.take room)

/-- Where a session is that has ended, when the client takes so many answers. -/
def Aftermath.within (room : ℕ) (a : Aftermath) : OnSocket :=
  if a.sent.length ≤ room then .over a else .stopped (a.sent.take room)

namespace Server

open WireProtocol

/-- **`Session::run` on its socket.** `stream` is what the client sends before it closes the
connection, `replies` is what the kernel answers to `recv`, and `room` is the number of answers
that the client takes. -/
def runOn (env : Env) (room : ℕ) (srv : Server) (stream : Bytes) (replies : List SysReply) :
    OnSocket :=
  if srv.crash.isSome then .over ⟨srv.fs, srv.crash, []⟩
  else
    match _hread : recvFrame stream replies with
    | .waiting => .reading srv []
    | .lost unread more =>
      if _hup : srv.uploading then
        -- the upload handler ends, and the loop of the session reads on
        let r := finishUpload env srv
        OnSocket.sends room (sendError env .error "Connection lost during upload" :: r.2)
          fun room => runOn env room r.1 unread more
      else .over ⟨srv.fs, srv.crash, []⟩
    | .got frame unread more =>
      let r := step env srv frame
      OnSocket.sends room r.2 fun room => runOn env room r.1 unread more
termination_by 2 * stream.length + srv.uploading.toNat
decreasing_by
  · have htakes := takes_recvFrame stream replies
    rw [_hread] at htakes
    simp only [Recv.Takes] at htakes
    simp only [uploading_finishUpload, _hup, Bool.toNat_false, Bool.toNat_true]
    omega
  · have htakes := takes_recvFrame stream replies
    rw [_hread] at htakes
    simp only [Recv.Takes, FRAME_HEADER_SIZE] at htakes
    have := Bool.toNat_le (step env srv frame).1.uploading
    omega

/-- What the session leaves behind when the client sends the frames and closes the
connection. A process that has ended does not see that. -/
def visit (env : Env) (srv : Server) (frames : List WireFrame) : Aftermath :=
  let r := run env srv frames
  if r.1.crash.isSome then ⟨r.1.fs, r.1.crash, r.2⟩
  else
    let r' := onEof env r.1
    ⟨r'.1.fs, r'.1.crash, r.2 ++ r'.2⟩

/-- A visit leaves the store that it leaves in a history. -/
theorem fs_visit (env : Env) (fs : FileSystem) (v : Visit) :
    (visit env (Server.new v.blockSize fs) v.frames).fs = v.leaves env fs := by
  unfold visit Visit.leaves
  dsimp only
  split <;> rfl

section Loop

variable {env : Env} {room : ℕ} {srv : Server} {stream stream' : Bytes}
  {replies replies' : List SysReply} {frame : WireFrame} {frames : List WireFrame}

theorem runOn_of_down (h : srv.crash.isSome = true) :
    runOn env room srv stream replies = .over ⟨srv.fs, srv.crash, []⟩ := by
  rw [runOn, if_pos h]

theorem runOn_of_got (h : srv.crash = none)
    (hread : recvFrame stream replies = .got frame stream' replies') :
    runOn env room srv stream replies = OnSocket.sends room (step env srv frame).2
      fun room => runOn env room (step env srv frame).1 stream' replies' := by
  rw [runOn, if_neg (by simp [h])]
  split
  · next hw => exact absurd (hread.symm.trans hw) (by simp)
  · next hf => exact absurd (hread.symm.trans hf) (by simp)
  · next hg =>
    obtain ⟨rfl, rfl, rfl⟩ := Recv.got.inj (hread.symm.trans hg)
    rfl

theorem runOn_of_waiting (h : srv.crash = none) (hread : recvFrame stream replies = .waiting) :
    runOn env room srv stream replies = .reading srv [] := by
  rw [runOn, if_neg (by simp [h])]
  split
  · rfl
  · next hf => exact absurd (hread.symm.trans hf) (by simp)
  · next hg => exact absurd (hread.symm.trans hg) (by simp)

/-- A failed read inside an upload. -/
theorem runOn_of_failed (h : srv.crash = none) (hup : srv.uploading = true)
    (hread : recvFrame stream replies = .lost stream' replies') :
    runOn env room srv stream replies = OnSocket.sends room
      (sendError env .error "Connection lost during upload" :: (finishUpload env srv).2)
      fun room => runOn env room (finishUpload env srv).1 stream' replies' := by
  rw [runOn, if_neg (by simp [h])]
  split
  · next hw => exact absurd (hread.symm.trans hw) (by simp)
  · next hf =>
    obtain ⟨rfl, rfl⟩ := Recv.lost.inj (hread.symm.trans hf)
    rw [dif_pos hup]
  · next hg => exact absurd (hread.symm.trans hg) (by simp)

/-- A failed read of the session itself. -/
theorem runOn_of_lost (h : srv.crash = none) (hup : srv.uploading = false)
    (hread : recvFrame stream replies = .lost stream' replies') :
    runOn env room srv stream replies = .over ⟨srv.fs, srv.crash, []⟩ := by
  rw [runOn, if_neg (by simp [h])]
  split
  · next hw => exact absurd (hread.symm.trans hw) (by simp)
  · rw [dif_neg (by simp [hup])]
  · next hg => exact absurd (hread.symm.trans hg) (by simp)

/-- What has been sent in the end, or so far. -/
def sentOn : OnSocket → List Sent
  | .reading _ sent => sent
  | .over a => a.sent
  | .stopped sent => sent

theorem sentOn_after (out : List Sent) (x : OnSocket) : sentOn (x.after out) = out ++ sentOn x := by
  cases x <;> rfl

/-- What goes out first stays when the rest goes on. -/
theorem sentOn_sends_le {out : List Sent} {rest rest' : ℕ → OnSocket}
    (h : ∀ n, sentOn (rest n) <+: sentOn (rest' n)) :
    sentOn (OnSocket.sends room out rest) <+: sentOn (OnSocket.sends room out rest') := by
  unfold OnSocket.sends
  split
  · rw [sentOn_after, sentOn_after]
    exact (List.prefix_append_right_inj _).mpr (h _)
  · exact List.prefix_refl _

/-- **A session goes on where it is**: further replies do not change what it has sent. -/
theorem sentOn_begins (more : List SysReply) : sentOn (runOn env room srv stream replies) <+:
    sentOn (runOn env room srv stream (replies ++ more)) := by
  induction room, srv, stream, replies using runOn.induct env with
  | case1 room srv stream replies hdown => rw [runOn_of_down hdown, runOn_of_down hdown]
  | case2 room srv stream replies hlive hread =>
    rw [runOn_of_waiting (by simpa using hlive) hread]
    exact List.nil_prefix
  | case3 room srv stream replies hlive unread left hread hup r ih =>
    have hup' : srv.crash = none := by simpa using hlive
    have hmore := recvFrame_stable stream replies (by rw [hread]; nofun) more
    rw [hread] at hmore
    rw [runOn_of_failed hup' hup hread, runOn_of_failed hup' hup hmore]
    exact sentOn_sends_le ih
  | case4 room srv stream replies hlive unread left hread hup =>
    have hup' : srv.crash = none := by simpa using hlive
    have hmore := recvFrame_stable stream replies (by rw [hread]; nofun) more
    rw [hread] at hmore
    rw [runOn_of_lost hup' (by simpa using hup) hread,
      runOn_of_lost hup' (by simpa using hup) hmore]
  | case5 room srv stream replies hlive frame unread left hread r ih =>
    have hup' : srv.crash = none := by simpa using hlive
    have hmore := recvFrame_stable stream replies (by rw [hread]; nofun) more
    rw [hread] at hmore
    rw [runOn_of_got hup' hread, runOn_of_got hup' hmore]
    exact sentOn_sends_le ih

theorem visit_of_down (h : srv.crash.isSome = true) (frames : List WireFrame) :
    visit env srv frames = ⟨srv.fs, srv.crash, []⟩ := by
  rw [visit, run_of_down h]
  exact if_pos h

/-- What goes out first and what goes out later has to be taken. -/
theorem sends_within (out : List Sent) (a : Aftermath) :
    OnSocket.sends room out (fun room => a.within room) =
      Aftermath.within room { a with sent := out ++ a.sent } := by
  unfold OnSocket.sends Aftermath.within
  simp only [List.length_append]
  by_cases hout : out.length ≤ room
  · rw [if_pos hout]
    by_cases hall : a.sent.length ≤ room - out.length
    · rw [if_pos hall, if_pos (by omega)]
      rfl
    · rw [if_neg hall, if_neg (by omega), List.take_append, List.take_of_length_le hout]
      rfl
  · rw [if_neg hout, if_neg (by omega), List.take_append_of_le_length (by omega)]

/-- A visit, frame by frame. -/
theorem visit_cons (h : srv.crash = none) :
    visit env srv (frame :: frames) = { visit env (step env srv frame).1 frames with
      sent := (step env srv frame).2 ++ (visit env (step env srv frame).1 frames).sent } := by
  unfold visit
  rw [run_cons h]
  dsimp only
  split
  · rfl
  · rw [List.append_assoc]

/-- Where nothing can be read the session ends as at the end of the stream. -/
theorem runOn_of_fails {σ : Stream' SysReply} (hσ : exactLoop.Legal σ)
    (hfails : Recv.Fails (· = []) (recvFrame stream))
    (hnil : Recv.Fails (· = []) (recvFrame [])) :
    ∃ k, ∀ room more, runOn env room srv stream (σ.take k ++ more) =
      (visit env srv []).within room := by
  by_cases hdown : srv.crash.isSome = true
  · refine ⟨0, fun room more => ?_⟩
    rw [runOn_of_down hdown, visit_of_down hdown]
    rfl
  have hlive : srv.crash = none := by simpa using hdown
  obtain ⟨k, _, rfl, hk⟩ := hfails σ hσ
  have hvisit : visit env srv [] =
      ⟨(onEof env srv).1.fs, (onEof env srv).1.crash, (onEof env srv).2⟩ := if_neg hdown
  cases hup : srv.uploading with
  | false =>
    refine ⟨k, fun room more => ?_⟩
    rw [runOn_of_lost hlive hup (hk more), hvisit, onEof, hup]
    rfl
  | true =>
    -- the loop of the session comes round once more
    obtain ⟨k', _, rfl, hk'⟩ := hnil (σ.drop k) (hσ.drop k)
    refine ⟨k + k', fun room more => ?_⟩
    have hrest : ∀ room, runOn env room (finishUpload env srv).1 [] ((σ.drop k).take k' ++ more) =
        Aftermath.within room
          ⟨(finishUpload env srv).1.fs, (finishUpload env srv).1.crash, []⟩ := by
      intro room
      by_cases hended : (finishUpload env srv).1.crash.isSome = true
      · rw [runOn_of_down hended]
        rfl
      · rw [runOn_of_lost (by simpa using hended) uploading_finishUpload (hk' more)]
        rfl
    rw [Stream'.take_add, List.append_assoc, runOn_of_failed hlive hup (hk _), hvisit, onEof,
      if_pos hup, funext hrest, sends_within, List.append_nil]
    rfl

/-- **The session on a socket refines the session on frames**: whatever pieces the bytes come
in, it handles the frames of the stream and then the end of the connection. -/
theorem runOn_of_readFrames {rest : Bytes} (n : ℕ) (hrest : WireProtocol.readFrame rest = none)
    (hmod : Moderate rest) :
    ∀ {srv : Server} {stream : Bytes} {frames : List WireFrame} {σ : Stream' SysReply},
      readFrames WireProtocol.readFrame n stream = some (frames, rest) →
        (∀ f ∈ frames, f.payload.length < 2 ^ 32) → exactLoop.Legal σ →
          ∃ k, ∀ room more, runOn env room srv stream (σ.take k ++ more) =
            (visit env srv frames).within room := by
  induction n with
  | zero =>
    intro srv stream frames σ hframes hsmall hσ
    obtain ⟨rfl, rfl⟩ := Prod.mk.inj (Option.some.inj hframes)
    exact runOn_of_fails hσ (recvFrame_fails_of_moderate hrest hmod)
      (recvFrame_fails_of_moderate (readFrame_short (by decide)).1 moderate_nil)
  | succ n ih =>
    intro srv stream frames σ hframes hsmall hσ
    obtain ⟨f, s', frames', hread, hframes', rfl⟩ := readFrames_succ.mp hframes
    by_cases hdown : srv.crash.isSome = true
    · refine ⟨0, fun room more => ?_⟩
      rw [runOn_of_down hdown, visit_of_down hdown]
      rfl
    have hlive : srv.crash = none := by simpa using hdown
    obtain ⟨k, hk⟩ := recvFrame_delivers hread (hsmall f List.mem_cons_self) σ hσ
    obtain ⟨k', hk'⟩ := ih hframes' (fun g hg => hsmall g (List.mem_cons_of_mem f hg)) (hσ.drop k)
    refine ⟨k + k', fun room more => ?_⟩
    rw [Stream'.take_add, List.append_assoc, runOn_of_got hlive (hk _),
      funext fun room => hk' room more, sends_within, visit_cons hlive]

end Loop

end Server

/-! ### A connection that breaks off -/

/-- The frames that are complete in the first `n` bytes. -/
def arrived : List Frame → ℕ → List Frame
  | [], _ => []
  | f :: fs, n =>
    if f.encodeRust.length ≤ n then f :: arrived fs (n - f.encodeRust.length) else []

namespace WireProtocol

theorem readFrame_encodeRust (f : Frame) (rest : Bytes) :
    readFrame (f.encodeRust ++ rest) = some (f.content, rest) := by
  rw [← f.encodeCpp_eq_encodeRust]
  exact readFrame_encode f rest

/-- What there is of a frame announces as much as the frame holds. -/
theorem moderate_of_begins {f : Frame} {s : Bytes} (hs : s <+: f.encodeRust)
    (hsmall : f.content.payload.length < 2 ^ 32) : Moderate s := by
  rintro hdr t len u rfl hhdr hraw hlen
  obtain ⟨v, hv⟩ := hs
  rw [List.append_assoc, List.cons_append, List.append_assoc] at hv
  cases f with
  | standard type p h =>
    -- the length of a standard frame is not the sentinel
    have hbe : hdr = be 4 (p.length % 2 ^ 32) :=
      (List.append_inj hv (by rw [hhdr, length_be])).1
    rw [hbe, ofBe_be_length h] at hraw
    exact absurd hraw (Nat.ne_of_lt h)
  | raw bs h =>
    rw [Frame.encodeRust, Wire.encodeRawDataHeader, List.append_assoc, List.cons_append] at hv
    have htail := (List.append_inj hv (by rw [hhdr, length_be])).2
    have hbe : len = be 8 (bs.length % 2 ^ 64) :=
      (List.append_inj (List.cons.inj htail).2 (by rw [hlen, length_be])).1
    rw [hbe, ofBe_be_rawLength h]
    exact hsmall

/-- A stream of frames that breaks off holds the frames that have arrived, and a part of the
next one. -/
theorem readFrames_arrived {fs : List Frame}
    (hsmall : ∀ f ∈ fs, f.content.payload.length < 2 ^ 32) :
    ∀ n : ℕ, ∃ rest, readFrames readFrame (arrived fs n).length
        ((fs.map Frame.encodeRust).flatten.take n) =
          some ((arrived fs n).map Frame.content, rest) ∧
      readFrame rest = none ∧ Moderate rest := by
  induction fs with
  | nil => exact fun n => ⟨[], by simp [arrived, readFrames], (readFrame_short (by decide)).1,
      moderate_nil⟩
  | cons f fs ih =>
    intro n
    rw [List.map_cons, List.flatten_cons, arrived]
    split
    · next hle =>
      obtain ⟨rest, hframes, hrest⟩ := ih (fun g hg => hsmall g (List.mem_cons_of_mem f hg))
        (n - f.encodeRust.length)
      refine ⟨rest, ?_, hrest⟩
      rw [List.take_append, List.take_of_length_le hle, List.length_cons, readFrames_succ]
      exact ⟨_, _, _, readFrame_encodeRust f _, hframes, rfl⟩
    · next hlt =>
      have htake : (f.encodeRust ++ (fs.map Frame.encodeRust).flatten).take n =
          f.encodeRust.take n := List.take_append_of_le_length (by omega)
      rw [htake]
      have hprefix : f.encodeRust.take n <+: f.encodeRust := List.take_prefix n _
      refine ⟨f.encodeRust.take n, rfl, ?_,
        moderate_of_begins hprefix (hsmall f List.mem_cons_self)⟩
      refine read_eq_none_of_strict readFrame_encodeRust readFrame_mono hprefix fun heq => ?_
      have := congrArg List.length heq
      rw [List.length_take] at this
      omega

end WireProtocol

section Broken

variable {env : Env} {srv : Server} {fs : List Frame} {n : ℕ}

theorem arrived_begins (fs : List Frame) : ∀ n, arrived fs n <+: fs := by
  induction fs with
  | nil => exact fun n => List.prefix_refl _
  | cons f fs ih =>
    intro n
    rw [arrived]
    split
    · exact List.cons_prefix_cons.mpr ⟨rfl, ih _⟩
    · exact List.nil_prefix

theorem arrived_eq (fs : List Frame) :
    ∀ n, (fs.map Frame.encodeRust).flatten.length ≤ n → arrived fs n = fs := by
  induction fs with
  | nil => exact fun n _ => rfl
  | cons f fs ih =>
    intro n hn
    rw [List.map_cons, List.flatten_cons, List.length_append] at hn
    rw [arrived, if_pos (by omega), ih _ (by omega)]

/-- The session on a stream of frames that breaks off. -/
theorem runOn_of_arrived (hsmall : ∀ f ∈ fs, f.content.payload.length < 2 ^ 32) (n : ℕ)
    {σ : Stream' SysReply} (hσ : WireProtocol.exactLoop.Legal σ) :
    ∃ k, ∀ room more, Server.runOn env room srv ((fs.map Frame.encodeRust).flatten.take n)
        (σ.take k ++ more) =
      (Server.visit env srv ((arrived fs n).map Frame.content)).within room := by
  obtain ⟨rest, hframes, hrest, hmod⟩ := WireProtocol.readFrames_arrived hsmall n
  refine Server.runOn_of_readFrames _ hrest hmod hframes (fun g hg => ?_) hσ
  obtain ⟨f, hf, rfl⟩ := List.mem_map.mp hg
  exact hsmall f ((arrived_begins fs n).subset hf)

/-- **The server handles what has arrived.** The client sends frames of less than 4 GiB, and
the connection breaks off after `n` bytes or is closed in the end. Whatever pieces the bytes
come in, if the client takes all answers the session comes to its end, having handled the frames
that are complete, in order, and nothing of the next one; and if it does not, the session is
stopped at the first answer that is not taken. On the way it has sent a part of what it sends in
the end. -/
theorem session_serves_what_arrived (hsmall : ∀ f ∈ fs, f.content.payload.length < 2 ^ 32)
    (n room : ℕ) {σ : Stream' SysReply} (hσ : WireProtocol.exactLoop.Legal σ) :
    let visit := Server.visit env srv ((arrived fs n).map Frame.content)
    (∃ k, ∀ more, Server.runOn env room srv ((fs.map Frame.encodeRust).flatten.take n)
        (σ.take k ++ more) =
          if visit.sent.length ≤ room then .over visit else .stopped (visit.sent.take room)) ∧
      ∀ k, Server.sentOn (Server.runOn env room srv ((fs.map Frame.encodeRust).flatten.take n)
        (σ.take k)) <+: visit.sent := by
  intro visit
  obtain ⟨last, hlast⟩ := @runOn_of_arrived env srv fs hsmall n σ hσ
  refine ⟨⟨last, hlast room⟩, fun k => ?_⟩
  -- both the moment and the end lie before `k + last` replies
  have hover : Server.runOn env room srv ((fs.map Frame.encodeRust).flatten.take n)
      (σ.take (k + last)) = visit.within room := by
    rw [Nat.add_comm, Stream'.take_add, hlast]
  have hle := @Server.sentOn_begins env room srv ((fs.map Frame.encodeRust).flatten.take n)
    (σ.take k) ((σ.drop k).take last)
  rw [← Stream'.take_add, hover] at hle
  refine hle.trans ?_
  unfold Aftermath.within
  split
  · exact List.prefix_refl _
  · exact List.take_prefix _ _

end Broken

/-- Of two frames of five and eight bytes eleven bytes arrive, one by one, and three answers are
taken. -/
theorem session_serves_what_arrived_eleven :
    let fs : List Frame := [.standard 1 [] (by decide), .standard 2 [7, 8, 9] (by decide)]
    let srv := Server.new 4096 FileSystem.blank
    let visit := Server.visit storageEnv srv [⟨1, []⟩]
    (∃ k, ∀ more, Server.runOn storageEnv 3 srv ((fs.map Frame.encodeRust).flatten.take 11)
        ((Stream'.const (.moves 1)).take k ++ more) =
          if visit.sent.length ≤ 3 then .over visit else .stopped (visit.sent.take 3)) ∧
      ∀ k, Server.sentOn (Server.runOn storageEnv 3 srv ((fs.map Frame.encodeRust).flatten.take 11)
        ((Stream'.const (.moves 1)).take k)) <+: visit.sent := by
  intro fs srv visit
  have hsmall : ∀ f ∈ fs, f.content.payload.length < 2 ^ 32 := by decide
  exact session_serves_what_arrived hsmall 11 3 (Loop.legal_const 1)

/-! ### An upload that breaks off -/

section Upload

variable {env : Env} {srv : Server} {p : String} {t : LexPath.Text} {c d : Bytes}

/-- While data is missing the upload waits for it, and nothing is written. -/
theorem Receiving.run_short (pieces : List Bytes) (hlen : c.length < maxOffset) :
    ∀ {srv : Server} {d : Bytes}, Receiving env srv p t c d → srv.uploading = true →
      (d ++ pieces.flatten).length < c.length →
        Receiving env (Server.run env srv (pieces.map fun d => ⟨MSG_RAW_DATA, d⟩)).1 p t c
            (d ++ pieces.flatten) ∧
          (Server.run env srv (pieces.map fun d => ⟨MSG_RAW_DATA, d⟩)).1.uploading = true ∧
          (Server.run env srv (pieces.map fun d => ⟨MSG_RAW_DATA, d⟩)).1.fs = srv.fs := by
  induction pieces with
  | nil =>
    intro srv d h hup hlt
    rw [List.flatten_nil, List.append_nil]
    exact ⟨h, hup, rfl⟩
  | cons e pieces ih =>
    intro srv d h hup hlt
    rw [List.flatten_cons, ← List.append_assoc] at hlt ⊢
    have hmore : (d ++ e).length < c.length := by
      rw [List.length_append] at hlt
      omega
    obtain ⟨next, hnext, -, hfs, hstep⟩ := h.step hup e
    -- the loop goes round once more
    have hwait : Receiving env { next with uploading := true } p t c (d ++ e) :=
      ⟨hnext.up, hnext.writable, hnext.path, hnext.total, hnext.received, hnext.buffer⟩
    obtain ⟨hrec, hup', hfs'⟩ := ih hwait rfl hlt
    rw [List.map_cons, Server.run_cons h.up, hstep, (hnext.loop hlen hmore.le).1 hmore]
    exact ⟨hrec, hup', hfs'.trans hfs⟩

/-- An upload that ends too early writes nothing. -/
theorem Receiving.onEof_short (h : Receiving env srv p t c d) (hup : srv.uploading = true)
    (hlen : c.length < maxOffset) (hlt : d.length < c.length) :
    (Server.onEof env srv).1.fs = srv.fs ∧ (Server.onEof env srv).1.crash = none := by
  have hne : srv.session.uploadState.received ≠ srv.session.uploadState.totalSize := by
    intro heq
    have := congrArg UInt64.toNat (h.received.symm.trans (heq.trans h.total))
    rw [toNat_ofNat_of_lt hlen, toNat_ofNat_of_lt (by omega)] at this
    omega
  rw [Server.onEof, if_pos hup, Server.finishUpload]
  dsimp only
  rw [if_neg hne]
  exact ⟨rfl, h.up⟩

/-- A session that waits for a request has nothing to save at its end. -/
theorem visit_of_idle {frames : List WireFrame} (h : Idle (Server.run env srv frames).1) :
    (Server.visit env srv frames).fs = (Server.run env srv frames).1.fs ∧
      (Server.visit env srv frames).crash = none := by
  unfold Server.visit
  dsimp only
  rw [if_neg (by simp [h.up]), Server.onEof, h.waiting]
  exact ⟨rfl, h.up⟩

/-- What an upload may leave: the store as it was, or with the file in place. -/
inductive AllOrNothing (env : Env) (fs : FileSystem) (p : String) (t : LexPath.Text) (c : Bytes) :
    FileSystem → Prop
  | nothing : AllOrNothing env fs p t c fs
  | all {fs' : FileSystem} (saved : Saved env.fm fs' p t c)
      (others : fs.FilesAgree (footprint env.fm fs p) fs') : AllOrNothing env fs p t c fs'

/-- The visit of an upload of which not all arrives. -/
theorem visit_of_short {m : FileMetadata} {pieces : List Bytes} (hidle : Idle srv)
    (hwritable : env.fm.Writable srv.fs m.relativePath t)
    (hsize : m.fileSize = UInt64.ofNat c.length) (hlen : c.length < maxOffset)
    (hlt : pieces.flatten.length < c.length) :
    (Server.visit env srv (uploadFrames env m pieces)).crash = none ∧
      (Server.visit env srv (uploadFrames env m pieces)).fs = srv.fs := by
  have hmore : ([] : Bytes).length < c.length := Nat.zero_lt_of_lt hlt
  -- the request starts an upload without data
  have hstart : Receiving env { srv with session := { srv.session with
      uploadState := (⟨m⟩ : ZeroCopyUploadRequest).upload, state := .transferring } }
      m.relativePath t c [] :=
    ⟨hidle.up, hwritable, rfl, hsize, rfl, rfl⟩
  have hwait : Receiving env { srv with
      session := { srv.session with
        uploadState := (⟨m⟩ : ZeroCopyUploadRequest).upload, state := .transferring }
      uploading := true } m.relativePath t c [] :=
    ⟨hidle.up, hwritable, rfl, hsize, rfl, rfl⟩
  have hrun : (Server.run env srv (uploadFrames env m pieces)).1 = (Server.run env { srv with
      session := { srv.session with
        uploadState := (⟨m⟩ : ZeroCopyUploadRequest).upload, state := .transferring }
      uploading := true } (pieces.map fun d => ⟨MSG_RAW_DATA, d⟩)).1 := by
    rw [uploadFrames, Server.run_cons hidle.up, Server.step_of_idle hidle.waiting,
      Server.dispatch_uploadRequest rfl, Server.handleZeroCopyUploadRequest]
    simp only [message, Codec.decode_encode]
    exact congrArg (fun s : Server => (Server.run env s _).1)
      (congrArg Prod.fst ((hstart.loop hlen hmore.le).1 hmore))
  obtain ⟨hrec, hup, hfs⟩ := hwait.run_short pieces hlen rfl hlt
  rw [← hrun] at hrec hup hfs
  -- the stream ends while data are missing, and nothing is written
  obtain ⟨heof, hcrash⟩ := hrec.onEof_short hup hlen hlt
  unfold Server.visit
  dsimp only
  rw [if_neg (by simp [hrec.up])]
  exact ⟨hcrash, heof.trans hfs⟩

/-- The visit of an upload of which so many pieces arrive. -/
theorem visit_uploadFrames {m : FileMetadata} {pieces : List Bytes} (hidle : Idle srv)
    (hwritable : env.fm.Writable srv.fs m.relativePath t)
    (hsize : m.fileSize = UInt64.ofNat c.length) (hlen : c.length < maxOffset)
    (hpieces : pieces.flatten <+: c) :
    (Server.visit env srv (uploadFrames env m pieces)).crash = none ∧
      AllOrNothing env srv.fs m.relativePath t c
        (Server.visit env srv (uploadFrames env m pieces)).fs ∧
      (pieces.flatten = c → Saved env.fm (Server.visit env srv (uploadFrames env m pieces)).fs
        m.relativePath t c) := by
  by_cases hall : pieces.flatten = c
  · -- all of the data has arrived
    subst hall
    obtain ⟨hidle', hsaved⟩ := run_upload hidle hwritable hsize hlen
    obtain ⟨hfs, hcrash⟩ := visit_of_idle hidle'
    have hothers := filesAgree_run (fun hup => absurd (hidle.waiting.symm.trans hup) (by simp))
      (about_uploadFrames env m pieces)
    rw [← hfs] at hsaved hothers
    exact ⟨hcrash, .all hsaved hothers, fun _ => hsaved⟩
  · have hlt : pieces.flatten.length < c.length :=
      lt_of_le_of_ne hpieces.length_le fun heq => hall (hpieces.eq_of_length heq)
    obtain ⟨hcrash, hfs⟩ := visit_of_short hidle hwritable hsize hlen hlt
    refine ⟨hcrash, ?_, fun h => absurd h hall⟩
    rw [hfs]
    exact .nothing

/-- The first frames of an upload. -/
theorem prefix_uploadFrames {m : FileMetadata} {pieces : List Bytes} {frames : List WireFrame}
    (h : frames <+: uploadFrames env m pieces) :
    frames = [] ∨ ∃ first, first <+: pieces ∧ frames = uploadFrames env m first := by
  cases frames with
  | nil => exact .inl rfl
  | cons f rest =>
    obtain ⟨rfl, hrest⟩ := List.cons_prefix_cons.mp h
    obtain ⟨first, hfirst, rfl⟩ := List.prefix_map_iff.mp hrest
    exact .inr ⟨first, hfirst, rfl⟩

/-- **An upload is all or nothing.** A client uploads a file, in pieces of any size, over a
connection that may break off after any number of bytes, and takes all answers. Whatever the
kernel makes of that, the session comes to its end with the store as it was, or with the whole
file in its place and every other file as it was; and if all of the bytes arrive, with the file in
its place. -/
theorem upload_all_or_nothing {m : FileMetadata} {pieces : List Bytes} {fs : List Frame}
    (hidle : Idle srv) (hwritable : env.fm.Writable srv.fs m.relativePath t)
    (hsize : m.fileSize = UInt64.ofNat pieces.flatten.length)
    (hlen : pieces.flatten.length < maxOffset)
    (hfs : fs.map Frame.content = uploadFrames env m pieces)
    (hsmall : ∀ f ∈ fs, f.content.payload.length < 2 ^ 32) (n : ℕ) {room : ℕ}
    (hroom : (Server.visit env srv ((arrived fs n).map Frame.content)).sent.length ≤ room)
    {σ : Stream' SysReply} (hσ : WireProtocol.exactLoop.Legal σ) :
    ∃ a : Aftermath, (∃ k, ∀ more, Server.runOn env room srv
        ((fs.map Frame.encodeRust).flatten.take n) (σ.take k ++ more) = .over a) ∧
      a.crash = none ∧ AllOrNothing env srv.fs m.relativePath t pieces.flatten a.fs ∧
      ((fs.map Frame.encodeRust).flatten.length ≤ n →
        Saved env.fm a.fs m.relativePath t pieces.flatten) := by
  obtain ⟨k, hk⟩ := @runOn_of_arrived env srv fs hsmall n σ hσ
  refine ⟨_, ⟨k, fun more => (hk room more).trans (if_pos hroom)⟩, ?_⟩
  have hprefix : (arrived fs n).map Frame.content <+: uploadFrames env m pieces := by
    rw [← hfs]
    exact (arrived_begins fs n).map _
  obtain hnone | ⟨first, hfirst, hframes⟩ := prefix_uploadFrames hprefix
  · -- not even the request has arrived
    have hvisit : Server.visit env srv [] = ⟨srv.fs, none, []⟩ := by
      rw [Server.visit, Server.run, Server.onEof, hidle.waiting]
      simp [hidle.up, Server.setState]
    rw [hnone, hvisit]
    refine ⟨rfl, .nothing, fun hn => ?_⟩
    rw [arrived_eq fs n hn, hfs] at hnone
    exact absurd hnone (by simp [uploadFrames])
  · have hpieces : first.flatten <+: pieces.flatten := by
      obtain ⟨rest, rfl⟩ := hfirst
      rw [List.flatten_append]
      exact List.prefix_append _ _
    obtain ⟨hcrash, hall, hdone⟩ := visit_uploadFrames hidle hwritable hsize hlen hpieces
    rw [hframes]
    refine ⟨hcrash, hall, fun hn => hdone ?_⟩
    -- every frame has arrived, so all of the pieces have
    rw [arrived_eq fs n hn, hfs] at hframes
    have hmap := (List.cons.inj hframes).2
    have hinj : Function.Injective fun d : Bytes => (⟨MSG_RAW_DATA, d⟩ : WireFrame) :=
      fun a b h => (WireFrame.mk.inj h).2
    rw [List.map_injective_iff.mpr hinj hmap]

end Upload

/-- A file of one byte, of which all but the last byte of the connection arrives. -/
theorem upload_all_or_nothing_cut :
    let m : FileMetadata := ⟨"f", 1, 0, "", .fresh⟩
    let fs : List Frame := [.standard MessageType.zeroCopyUploadRequest.code
      (protobuf.zeroCopyUploadRequest.encode ⟨m⟩) (by decide +kernel), .raw [7] (by decide)]
    let srv := Server.new 4096 (FileSystem.single ['s'] ['f'] none)
    ∃ a : Aftermath, (∃ k, ∀ more, Server.runOn storageEnv 2 srv
        ((fs.map Frame.encodeRust).flatten.take 25) ((Stream'.const (.moves 3)).take k ++ more) =
          .over a) ∧
      a.crash = none ∧ AllOrNothing storageEnv srv.fs "f" "s/f".toList [7] a.fs ∧
      ((fs.map Frame.encodeRust).flatten.length ≤ 25 →
        Saved storageEnv.fm a.fs "f" "s/f".toList [7]) := by
  intro m fs srv
  have hready : storageEnv.fm.Ready (FileSystem.single ['s'] ['f'] none) "f" "s/f".toList :=
    .of_single (by decide) (by decide) (by decide) rfl rfl rfl
  have hsmall : ∀ f ∈ fs, f.content.payload.length < 2 ^ 32 := by decide +kernel
  -- the request is acknowledged, and the end of the stream answered with an error
  have hroom : (Server.visit storageEnv srv ((arrived fs 25).map Frame.content)).sent.length ≤
      2 := by
    have harrived : (arrived fs 25).map Frame.content = uploadFrames storageEnv m [] := by
      decide +kernel
    rw [harrived, Server.visit, uploadFrames, Server.run_cons rfl, Server.step_of_idle rfl,
      Server.dispatch_uploadRequest rfl, Server.handleZeroCopyUploadRequest]
    simp only [message, Codec.decode_encode]
    decide
  exact @upload_all_or_nothing storageEnv srv "s/f".toList m [[7]] fs ⟨rfl, rfl⟩ hready.writable
    rfl (by decide) rfl hsmall 25 2 hroom _ (Loop.legal_const 3)

end AdaptiveSync
