import AdaptiveSync.Server.Sockets

/-!
# How file bytes are streamed

`ZeroCopySender` (`server/src/zero_copy_sender.cpp`) streams an open file to a socket with
`sendfile`, or with `read` and `send` where there is no `sendfile`. Both loops count down
from a size that `send_file` measured before it opened the file, and both are taken here
call by call, on any sequence of answers of the kernel.

The two keep their place in different ways, `sendfile` in an offset that the kernel moves
on, the other in the cursor of the file; `linux_streams` and `fallback_streams` say of both
that what is on the socket is the beginning of what was to be sent, and all of it exactly when
the result is `true`.

The `sendfile` loop goes on after a call that sent nothing. Nothing is what `sendfile` sends
at the end of a file, so the loop ends if and only if the file is as long as was measured
(`linux_loop_ends_iff`); another session may have replaced it by a shorter one.
-/

namespace AdaptiveSync

open Drain

namespace ZeroCopySender

/-- What a streaming function has put on the socket, and what it returned if it has. -/
structure Streamed where
  sent : Bytes
  result : Option Bool

/-- The same after `bytes` have gone out. -/
def Streamed.after (s : Streamed) (bytes : Bytes) : Streamed := { s with sent := bytes ++ s.sent }

/-- The loop of `send_file_linux`. -/
def linuxLoop : Loop Errno where
  asked := fun remaining => min remaining 0x7FFFFF00
  cap := MAX_RW_COUNT
  again := fun e => e = .eagain || e = .eintr
  -- a call that sent nothing is no error
  zeroEnds := false
  tame := fun _ => (Nat.min_le_left _ _).trans (Nat.min_le_left _ _)

/-- What `send_file_linux` returns, once its loop has ended. -/
def resultOf : Status → Option Bool
  | .waiting => none
  | .done => some true
  | .short | .failed => some false

theorem resultOf_eq_true_iff {s : Status} : resultOf s = some true ↔ s = .done := by
  cases s <;> decide

theorem resultOf_eq_none_iff {s : Status} : resultOf s = none ↔ s = .waiting := by
  cases s <;> decide

/-- `send_file_linux` on an open file. The offset is that of a byte of a file, so it is not
negative as an `off_t`. -/
def sendFileLinux (content : Bytes) (offset totalSize : UInt64) (replies : List SysReply) :
    Streamed :=
  let o := linuxLoop.run replies totalSize.toNat (content.drop offset.toNat)
  ⟨o.moved, resultOf o.status⟩

def BUFFER_SIZE : ℕ := 256 * 1024

/-- What a `read` delivers when `left` bytes are behind the cursor and the answer offers `n`. -/
def readCount (remaining left n : ℕ) : ℕ := min (max 1 n) (min (min remaining BUFFER_SIZE) left)

theorem readCount_le (remaining left n : ℕ) : readCount remaining left n ≤ remaining := by
  unfold readCount
  omega

theorem readCount_le_left (remaining left n : ℕ) : readCount remaining left n ≤ left := by
  unfold readCount
  omega

/-- The loop of `send_file_fallback`, with `src` behind the cursor of the file. The answers
to `read` and to `send` are two sequences. -/
def fallbackLoop : List SysReply → List SysReply → ℕ → Bytes → Streamed
  | _, _, 0, _ => ⟨[], some true⟩
  | [], _, _ + 1, _ => ⟨[], none⟩
  -- no error of `read` is tried again
  | .fails _ :: _, _, _ + 1, _ => ⟨[], some false⟩
  | .moves n :: reads, sends, remaining + 1, src =>
    let bytesRead := readCount (remaining + 1) src.length n
    if bytesRead = 0 then ⟨[], some false⟩
    else
      let o := WireProtocol.writeExact (src.take bytesRead) sends
      match WireProtocol.returned o with
      | none => ⟨o.moved, none⟩
      | some sent =>
        if sent ≠ bytesRead then ⟨o.moved, some false⟩
        else (fallbackLoop reads o.replies (remaining + 1 - bytesRead)
          (src.drop bytesRead)).after o.moved

/-- `send_file_fallback` on a file that was just opened. -/
def sendFileFallback (content : Bytes) (offset totalSize : UInt64) (reads sends : List SysReply) :
    Streamed :=
  -- the cursor is at the beginning unless it is moved
  let cursor := if 0 < offset then offset.toNat else 0
  fallbackLoop reads sends totalSize.toNat (content.drop cursor)

/-! ### What they send -/

/-- What holds of a stream of the first `n` bytes of `src`. -/
structure Streams (n : ℕ) (src : Bytes) (s : Streamed) : Prop where
  begins : s.sent <+: src
  bounded : s.sent.length ≤ n
  through : s.result = some true ↔ s.sent.length = n

theorem linux_streams (content : Bytes) (offset totalSize : UInt64) (replies : List SysReply) :
    Streams totalSize.toNat (content.drop offset.toNat)
      (sendFileLinux content offset totalSize replies) where
  begins := Loop.run_moved replies totalSize.toNat (content.drop offset.toNat)
  bounded := (Loop.run_done_iff replies totalSize.toNat (content.drop offset.toNat)).1
  through := resultOf_eq_true_iff.trans
    (Loop.run_done_iff replies totalSize.toNat (content.drop offset.toNat)).2

/-- A function that has stopped early has sent less than it was to send. -/
theorem Streams.of_less {n : ℕ} {src : Bytes} {s : Streamed} (hbegins : s.sent <+: src)
    (hlt : s.sent.length < n) (hres : s.result ≠ some true) : Streams n src s where
  begins := hbegins
  bounded := hlt.le
  through := ⟨fun h => absurd h hres, fun h => absurd h hlt.ne⟩

/-- A piece has gone out as a whole, and the rest is streamed. -/
theorem Streams.after {n m : ℕ} {src : Bytes} {s : Streamed} (h : Streams (n - m) (src.drop m) s)
    (hn : m ≤ n) (hm : m ≤ src.length) : Streams n src (s.after (src.take m)) := by
  have hlen : (src.take m ++ s.sent).length = m + s.sent.length := by
    rw [List.length_append, List.length_take_of_le hm]
  have hbounded := h.bounded
  refine ⟨?_, ?_, ?_⟩
  · show src.take m ++ s.sent <+: src
    obtain ⟨t, ht⟩ := h.begins
    exact ⟨t, by rw [List.append_assoc, ht, List.take_append_drop]⟩
  · show (src.take m ++ s.sent).length ≤ n
    omega
  · show s.result = some true ↔ (src.take m ++ s.sent).length = n
    rw [h.through, hlen]
    omega

theorem fallbackLoop_zero (reads sends : List SysReply) (src : Bytes) :
    fallbackLoop reads sends 0 src = ⟨[], some true⟩ := by
  cases reads with
  | nil => rfl
  | cons a reads => cases a <;> rfl

/-- A piece that `write_exact` did not get out as a whole. -/
theorem streams_of_returned_ne {n m : ℕ} {src : Bytes} {sends : List SysReply} {r : Option Bool}
    (hn : m ≤ n) (hm : m ≤ src.length)
    (h : WireProtocol.returned (WireProtocol.writeExact (src.take m) sends) ≠ some (m : ℤ))
    (hr : r ≠ some true) :
    Streams n src ⟨(WireProtocol.writeExact (src.take m) sends).moved, r⟩ := by
  have hlen : (src.take m).length = m := List.length_take_of_le hm
  have hlt := @WireProtocol.length_writeExact_lt (src.take m) sends (by rw [hlen]; exact h)
  refine .of_less ?_ (by rw [hlen] at hlt; exact hlt.trans_le hn) hr
  exact (Loop.run_moved _ _ _).trans (List.take_prefix m src)

theorem fallback_streams (reads sends : List SysReply) (n : ℕ) (src : Bytes) :
    Streams n src (fallbackLoop reads sends n src) := by
  induction reads, sends, n, src using fallbackLoop.induct with
  | case1 reads sends src =>
    rw [fallbackLoop_zero]
    exact ⟨List.nil_prefix, le_rfl, by simp⟩
  | case2 sends n src => exact .of_less List.nil_prefix (Nat.succ_pos n) (by simp [fallbackLoop])
  | case3 e reads sends n src =>
    exact .of_less List.nil_prefix (Nat.succ_pos n) (by simp [fallbackLoop])
  | case4 n reads sends r src m hm =>
    rw [fallbackLoop, if_pos hm]
    exact .of_less List.nil_prefix (Nat.succ_pos r) (by simp)
  | case5 n reads sends r src m hm o hnone =>
    -- `write_exact` has failed, so the piece is not all on the socket
    have hne : WireProtocol.returned o ≠ some (m : ℤ) := by simp [hnone]
    have h := streams_of_returned_ne (readCount_le _ _ _) (readCount_le_left _ _ _) hne
      (r := none) (by simp)
    rw [fallbackLoop, if_neg hm]
    simp only [o, m] at hnone
    simp only [hnone]
    exact h
  | case6 n reads sends r src m hm o sent hret hsent =>
    have hne : WireProtocol.returned o ≠ some (m : ℤ) := by simpa [hret] using hsent
    have h := streams_of_returned_ne (readCount_le _ _ _) (readCount_le_left _ _ _) hne
      (r := some false) (by simp)
    rw [fallbackLoop, if_neg hm]
    simp only [o, m] at hret
    simp only [hret]
    rw [if_pos hsent]
    exact h
  | case7 n reads sends r src m hm o sent hret hsent ih =>
    have hm₁ : m ≤ src.length := readCount_le_left _ _ _
    obtain rfl : sent = (m : ℤ) := not_not.mp hsent
    -- `write_exact` has sent the whole piece
    have hout : o.moved = src.take m := by
      refine (WireProtocol.returned_writeExact_iff (src.take m) sends).mp ?_
      rw [List.length_take_of_le hm₁]
      exact hret
    have h := ih.after (readCount_le _ _ _) hm₁
    rw [← hout] at h
    rw [fallbackLoop, if_neg hm]
    simp only [o, m] at hret
    simp only [hret]
    rw [if_neg hsent]
    exact h

/-- What is on the socket is the beginning of what is behind the offset, and all of it
exactly when the function has returned `true`. -/
structure Sends (content : Bytes) (offset : UInt64) (s : Streamed) : Prop where
  begins : s.sent <+: content.drop offset.toNat
  whole : s.sent = content.drop offset.toNat ↔ s.result = some true

theorem Streams.sends {content : Bytes} {offset : UInt64} {s : Streamed}
    (h : Streams (content.length - offset.toNat) (content.drop offset.toNat) s) :
    Sends content offset s where
  begins := h.begins
  whole := by
    have hlen : (content.drop offset.toNat).length = content.length - offset.toNat :=
      List.length_drop
    rw [h.through, ← hlen]
    exact ⟨congrArg List.length, h.begins.eq_of_length⟩

/-- **The `sendfile` path and the fallback path send the same bytes**: on every sequence of
answers, the beginning of what is behind the offset, and all of it if and only if they
return `true`. -/
theorem paths_send_the_same {content : Bytes} {offset : UInt64} (hsize : content.length < 2 ^ 63)
    (hoffset : offset.toNat < content.length) :
    (∀ replies, Sends content offset
      (sendFileLinux content offset (UInt64.ofNat content.length - offset) replies)) ∧
    ∀ reads sends, Sends content offset
      (sendFileFallback content offset (UInt64.ofNat content.length - offset) reads sends) := by
  have htotal : (UInt64.ofNat content.length).toNat = content.length := by
    rw [UInt64.toNat_ofNat']
    omega
  have hlength : (UInt64.ofNat content.length - offset).toNat =
      content.length - offset.toNat := by
    rw [UInt64.toNat_sub_of_le _ _ (by rw [UInt64.le_iff_toNat_le]; omega), htotal]
  constructor
  · intro replies
    apply Streams.sends
    rw [← hlength]
    exact linux_streams content offset _ replies
  · intro reads sends
    apply Streams.sends
    -- a cursor that was not moved is at offset zero
    have hcursor : (if 0 < offset then offset.toNat else 0) = offset.toNat := by
      split
      · rfl
      · next h =>
        rw [UInt64.lt_iff_toNat_lt] at h
        simp at h ⊢
        omega
    rw [← hlength, sendFileFallback, hcursor]
    exact fallback_streams reads sends _ _

theorem paths_send_the_same_three_bytes :
    ([1, 2, 3] : Bytes).length < 2 ^ 63 ∧ (1 : UInt64).toNat < ([1, 2, 3] : Bytes).length ∧
      Sends [1, 2, 3] 1
        (sendFileLinux [1, 2, 3] 1 (UInt64.ofNat 3 - 1) [.moves 1, .fails .eintr]) :=
  ⟨by decide, by decide, (@paths_send_the_same [1, 2, 3] 1 (by decide) (by decide)).1 _⟩

/-! ### Whether the `sendfile` loop ends -/

/-- **The zero-copy loop ends if and only if** the file that was opened is as long as was
measured, on every legal schedule. -/
theorem linux_loop_ends_iff {measured offset : UInt64} (hoffset : offset < measured)
    (content : Bytes) {σ : Stream' SysReply} (hσ : linuxLoop.Legal σ) :
    (∃ k, (sendFileLinux content offset (measured - offset) (σ.take k)).result ≠ none) ↔
      measured.toNat ≤ content.length := by
  have hlt : offset.toNat < measured.toNat := UInt64.lt_iff_toNat_lt.mp hoffset
  have hlength : (measured - offset).toNat = measured.toNat - offset.toNat :=
    UInt64.toNat_sub_of_le _ _ (UInt64.le_of_lt hoffset)
  constructor
  · rintro ⟨k, hk⟩
    by_contra hc
    apply hk
    refine resultOf_eq_none_iff.mpr (Loop.run_waiting rfl (fun _ => hσ.again_of_mem) ?_)
    rw [List.length_drop]
    omega
  · intro hle
    have hroom : (measured - offset).toNat ≤ (content.drop offset.toNat).length := by
      rw [List.length_drop]
      omega
    obtain ⟨k, hk⟩ := Loop.run_of_legal (by decide) hσ
      (fun n hn _ => Nat.lt_min.mpr ⟨hn, by decide⟩) hroom
    refine ⟨k, ?_⟩
    rw [sendFileLinux, ← List.append_nil (σ.take k), hk]
    simp [resultOf]

theorem linux_loop_ends_two_bytes :
    (0 : UInt64) < 2 ∧
      ∃ k, (sendFileLinux [7, 8] 0 (2 - 0) ((Stream'.const (.moves 1)).take k)).result ≠ none :=
  ⟨by decide, (linux_loop_ends_iff (by decide) [7, 8] (Loop.legal_const 1)).mpr (by decide)⟩

/-- A file of two bytes is measured, and has been replaced by one of one byte when it is
opened. -/
theorem linux_loop_spins :
    ¬ ∀ (measured offset : UInt64) (content : Bytes) (σ : Stream' SysReply), offset < measured →
      linuxLoop.Legal σ →
      ∃ k, (sendFileLinux content offset (measured - offset) (σ.take k)).result ≠ none := by
  intro h
  obtain ⟨k, hk⟩ := h 2 0 [7] _ (by decide) (Loop.legal_const 1)
  apply hk
  refine resultOf_eq_none_iff.mpr
    (Loop.run_waiting rfl (fun _ => (Loop.legal_const 1).again_of_mem) ?_)
  decide

end ZeroCopySender

end AdaptiveSync
