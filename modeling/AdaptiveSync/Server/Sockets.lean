import AdaptiveSync.Lib.Drain
import AdaptiveSync.Wire

/-!
# Exact reads and writes on a socket

`read_exact` and `write_exact` (`server/include/wire_protocol.h`) move a number of bytes
through a socket with as many `recv` or `send` calls as it takes, and `read_frame` is built
on the first of them. Here the calls are visible: what the kernel answers to them is a
sequence of replies, and the functions are loops over it (`Drain.Loop`).

Both loops pass what is left as `static_cast<int>(count - total)`, which the call takes as a
`size_t`: the low 32 bits, sign extended (`lengthArgument`). The argument is zero when what
is left is a multiple of `2^32`, and `recv` then returns zero, which `read_exact` takes for
a closed connection. So reads of any size below `2^32` are exact on every schedule
(`readExact_of_lt`), and a longer one always stops with `2^32` bytes or more still to come
(`length_readExact_of_ge`).

What the client's reader makes of a stream the server's reader makes of it too, unless the
stream begins with a raw frame of a foreign type or of such a length (`readers_agree_iff`).
-/

namespace AdaptiveSync

open BigEndian Drain

/-- The `errno` values that the loops tell apart. -/
inductive Errno where
  | eintr
  | eagain
  | other (code : ℕ)
  deriving DecidableEq

/-- What the kernel answers to `recv`, `send`, `read` and `sendfile`. -/
abbrev SysReply := Reply Errno

/-- The most that Linux moves in one call. -/
def MAX_RW_COUNT : ℕ := 0x7FFFF000

namespace WireProtocol

/-- `static_cast<int>(remaining)`, as the `size_t` that `recv` and `send` take. -/
def lengthArgument (remaining : ℕ) : ℕ := ((BitVec.ofNat 32 remaining).signExtend 64).toNat

theorem lengthArgument_eq (r : ℕ) :
    lengthArgument r = r % 2 ^ 32 + if 2 ^ 31 ≤ r % 2 ^ 32 then 2 ^ 64 - 2 ^ 32 else 0 := by
  have hlow : ((BitVec.ofNat 32 r).setWidth 64).toNat = r % 2 ^ 32 := by
    rw [BitVec.toNat_setWidth, BitVec.toNat_ofNat]
    omega
  have hmsb : (BitVec.ofNat 32 r).msb = decide (2 ^ 31 ≤ r % 2 ^ 32) := by
    rw [BitVec.msb_eq_decide, BitVec.toNat_ofNat]
  rw [lengthArgument, BitVec.toNat_signExtend, hlow, hmsb]
  simp only [decide_eq_true_eq]

theorem lengthArgument_eq_zero_iff {r : ℕ} : lengthArgument r = 0 ↔ r % 2 ^ 32 = 0 := by
  rw [lengthArgument_eq]
  split <;> omega

/-- A wrapped length is cut to less than what is left by the cap on a single call. -/
theorem lengthArgument_tame (r : ℕ) : min (lengthArgument r) MAX_RW_COUNT ≤ r := by
  rw [lengthArgument_eq]
  unfold MAX_RW_COUNT
  split <;> omega

theorem lengthArgument_pos {r : ℕ} (hr : 0 < r) (hlt : r < 2 ^ 32) : 0 < lengthArgument r := by
  have hne : r % 2 ^ 32 ≠ 0 := by omega
  exact Nat.pos_of_ne_zero (mt lengthArgument_eq_zero_iff.mp hne)

/-- The loop of `read_exact` and of `write_exact`. -/
def exactLoop : Loop Errno where
  asked := lengthArgument
  cap := MAX_RW_COUNT
  again := fun e => e = .eintr
  -- a zero is taken for a closed connection
  zeroEnds := true
  tame := lengthArgument_tame

/-- `read_exact` of `count` bytes; `moved` is what the buffer holds. -/
def readExact (count : ℕ) (stream : Bytes) (replies : List SysReply) : Outcome UInt8 Errno :=
  exactLoop.run replies count stream

/-- `write_exact` of a buffer; `moved` is what went out on the socket. -/
def writeExact (buf : Bytes) (replies : List SysReply) : Outcome UInt8 Errno :=
  exactLoop.run replies buf.length buf

/-- The value that `read_exact` and `write_exact` return, once they do. -/
def returned (o : Outcome UInt8 Errno) : Option ℤ :=
  match o.status with
  | .waiting => none
  | .done | .short => some o.moved.length
  | .failed => some (-1)

/-- `write_exact` returns the size of the buffer exactly when all of it is out. -/
theorem returned_writeExact_iff (buf : Bytes) (replies : List SysReply) :
    returned (writeExact buf replies) = some (buf.length : ℤ) ↔
      (writeExact buf replies).moved = buf := by
  have hdone := (Loop.run_done_iff (l := exactLoop) replies buf.length buf).2
  constructor
  · intro h
    have hlen : (writeExact buf replies).moved.length = buf.length := by
      unfold returned at h
      cases hs : (writeExact buf replies).status with
      | waiting => simp [hs] at h
      | done | short =>
        simp only [hs] at h
        exact Int.ofNat.inj (Option.some.inj h)
      | failed =>
        simp only [hs, Option.some.injEq] at h
        omega
    exact (Loop.run_moved replies buf.length buf).eq_of_length hlen
  · intro h
    have hs : (writeExact buf replies).status = .done := hdone.mpr (congrArg List.length h)
    simp only [returned, hs, h]

theorem length_writeExact_lt {buf : Bytes} {replies : List SysReply}
    (h : returned (writeExact buf replies) ≠ some (buf.length : ℤ)) :
    (writeExact buf replies).moved.length < buf.length := by
  have hle := (Loop.run_done_iff (l := exactLoop) replies buf.length buf).1
  refine lt_of_le_of_ne hle fun hlen => h ?_
  have hmoved := (Loop.run_moved replies buf.length buf).eq_of_length hlen
  exact (returned_writeExact_iff buf replies).mpr hmoved

/-! ### Reads of less than 4 GiB, and others -/

/-- A read of less than `2^32` bytes is exact, however the bytes come in. -/
theorem readExact_of_lt {count : ℕ} {stream : Bytes} {σ : Stream' SysReply}
    (hcount : count < 2 ^ 32) (hlen : count ≤ stream.length) (hσ : exactLoop.Legal σ) :
    ∃ k, ∀ more, readExact count stream (σ.take k ++ more) =
      ⟨stream.take count, stream.drop count, more, .done⟩ :=
  Loop.run_of_legal (by decide) hσ (fun _ h₁ h₂ => lengthArgument_pos h₁ (by omega)) hlen

/-- A read of `2^32` bytes or more never gets the last `2^32` of them: what is asked for is at
most the rest beyond a multiple of `2^32`. -/
theorem length_readExact_of_ge {count : ℕ} (hcount : 2 ^ 32 ≤ count) (stream : Bytes)
    (replies : List SysReply) : (readExact count stream replies).moved.length + 2 ^ 32 ≤ count := by
  refine Loop.length_moved_of_barrier (fun r hr => ?_) replies hcount stream
  show min (lengthArgument r) MAX_RW_COUNT + 2 ^ 32 ≤ r
  rw [lengthArgument_eq]
  unfold MAX_RW_COUNT
  split <;> omega

/-! ### Frames -/

/-- How far a reader has come, and where that leaves the socket. One that has failed leaves it
where it gave up. -/
inductive Recv (α : Type) where
  | waiting
  | lost (stream : Bytes) (replies : List SysReply)
  | got (a : α) (stream : Bytes) (replies : List SysReply)

namespace Recv

variable {α β : Type}

/-- Go on with what was read. -/
def bind (x : Recv α) (f : α → Bytes → List SysReply → Recv β) : Recv β :=
  match x with
  | .waiting => .waiting
  | .lost stream replies => .lost stream replies
  | .got a stream replies => f a stream replies

/-- The same with more replies to come. -/
def extend (x : Recv α) (more : List SysReply) : Recv α :=
  match x with
  | .waiting => .waiting
  | .lost stream replies => .lost stream (replies ++ more)
  | .got a stream replies => .got a stream (replies ++ more)

/-- A reader that has ended does not look at further replies. -/
def Stable (f : List SysReply → Recv α) : Prop :=
  ∀ replies, f replies ≠ .waiting → ∀ more, f (replies ++ more) = (f replies).extend more

/-- On every legal schedule the reader gets `a`, and leaves `rest` on the stream. -/
def Delivers (f : List SysReply → Recv α) (a : α) (rest : Bytes) : Prop :=
  ∀ σ : Stream' SysReply, exactLoop.Legal σ →
    ∃ k, ∀ more, f (σ.take k ++ more) = .got a rest more

/-- On every legal schedule the reader fails, and leaves on the stream what `P` says. -/
def Fails (P : Bytes → Prop) (f : List SysReply → Recv α) : Prop :=
  ∀ σ : Stream' SysReply, exactLoop.Legal σ →
    ∃ k rest, P rest ∧ ∀ more, f (σ.take k ++ more) = .lost rest more

theorem stable_got (a : α) (stream : Bytes) : Stable (.got a stream) :=
  fun _ _ _ => rfl

theorem Stable.bind {f : List SysReply → Recv α} {g : α → Bytes → List SysReply → Recv β}
    (hf : Stable f) (hg : ∀ a stream, Stable (g a stream)) :
    Stable fun replies => (f replies).bind g := by
  intro replies h more
  cases hx : f replies with
  | waiting => exact absurd (by simp only [hx, Recv.bind]) h
  | lost stream rest =>
    have hmore : f (replies ++ more) = .lost stream (rest ++ more) := by
      rw [hf replies (by simp [hx]), hx]; rfl
    simp only [hx, hmore, Recv.bind, Recv.extend]
  | got a stream rest =>
    have hmore : f (replies ++ more) = .got a stream (rest ++ more) := by
      rw [hf replies (by simp [hx]), hx]; rfl
    simp only [hx, Recv.bind] at h
    simp only [hx, hmore, Recv.bind]
    exact hg a stream rest h more

/-- On one schedule a reader does not both fail and succeed. -/
theorem Stable.got_ne_lost {f : List SysReply → Recv α} (hf : Stable f) {σ : Stream' SysReply}
    {k k' : ℕ} {a : α} {rest unread : Bytes} {replies left : List SysReply}
    (hlost : f (σ.take k) = .lost unread left) : f (σ.take k') ≠ .got a rest replies := by
  intro hgot
  -- each is still so after `k + k'` replies
  have h₁ : f (σ.take (k + k')) = .lost unread (left ++ (σ.drop k).take k') := by
    rw [Stream'.take_add, hf _ (by simp [hlost]), hlost]
    rfl
  have h₂ : f (σ.take (k + k')) = .got a rest (replies ++ (σ.drop k').take k) := by
    rw [Nat.add_comm, Stream'.take_add, hf _ (by simp [hgot]), hgot]
    rfl
  exact absurd (h₁.symm.trans h₂) (by simp)

theorem delivers_got (a : α) (rest : Bytes) : Delivers (.got a rest) a rest :=
  fun _ _ => ⟨0, fun _ => rfl⟩

theorem Delivers.bind {f : List SysReply → Recv α} {g : α → Bytes → List SysReply → Recv β}
    {a : α} {b : β} {s t : Bytes} (hf : Delivers f a s) (hg : Delivers (g a s) b t) :
    Delivers (fun replies => (f replies).bind g) b t := by
  intro σ hσ
  obtain ⟨k, hk⟩ := hf σ hσ
  obtain ⟨k', hk'⟩ := hg (σ.drop k) (hσ.drop k)
  refine ⟨k + k', fun more => ?_⟩
  rw [Stream'.take_add, List.append_assoc]
  show (f (σ.take k ++ _)).bind g = _
  rw [hk]
  exact hk' more

/-- The first read succeeds and the next one fails. -/
theorem Fails.bind {P : Bytes → Prop} {f : List SysReply → Recv α}
    {g : α → Bytes → List SysReply → Recv β} {a : α} {s : Bytes} (hf : Delivers f a s)
    (hg : Fails P (g a s)) : Fails P fun replies => (f replies).bind g := by
  intro σ hσ
  obtain ⟨k, hk⟩ := hf σ hσ
  obtain ⟨k', rest, hP, hk'⟩ := hg (σ.drop k) (hσ.drop k)
  refine ⟨k + k', rest, hP, fun more => ?_⟩
  rw [Stream'.take_add, List.append_assoc]
  show (f (σ.take k ++ _)).bind g = _
  rw [hk]
  exact hk' more

/-- The first read fails. -/
theorem Fails.bind_left {P : Bytes → Prop} {f : List SysReply → Recv α} (hf : Fails P f)
    (g : α → Bytes → List SysReply → Recv β) : Fails P fun replies => (f replies).bind g := by
  intro σ hσ
  obtain ⟨k, rest, hP, hk⟩ := hf σ hσ
  refine ⟨k, rest, hP, fun more => ?_⟩
  show (f (σ.take k ++ more)).bind g = _
  rw [hk]
  rfl

theorem Fails.imp {P Q : Bytes → Prop} {f : List SysReply → Recv α} (hf : Fails P f)
    (h : ∀ rest, P rest → Q rest) : Fails Q f := fun σ hσ =>
  (hf σ hσ).imp fun _ ⟨rest, hP, hk⟩ => ⟨rest, h rest hP, hk⟩

/-- A reader that delivers something delivers nothing else, and does not fail. -/
theorem Delivers.unique {f : List SysReply → Recv α} {a b : α} {s t : Bytes} (h : Delivers f a s)
    (h' : Delivers f b t) : a = b ∧ s = t := by
  obtain ⟨k, hk⟩ := h _ (Loop.legal_const 1)
  obtain ⟨k', hk'⟩ := h' _ (Loop.legal_const 1)
  -- both are so after `k + k'` replies
  have h₁ := hk (((Stream'.const (.moves 1)).drop k).take k')
  have h₂ := hk' (((Stream'.const (.moves 1)).drop k').take k)
  rw [← Stream'.take_add] at h₁ h₂
  rw [Nat.add_comm, h₁] at h₂
  obtain ⟨rfl, rfl, -⟩ := Recv.got.inj h₂
  exact ⟨rfl, rfl⟩

theorem Delivers.not_fails {P : Bytes → Prop} {f : List SysReply → Recv α} {a : α} {s : Bytes}
    (h : Delivers f a s) : ¬ Fails P f := by
  intro h'
  obtain ⟨k, hk⟩ := h _ (Loop.legal_const 1)
  obtain ⟨k', rest, -, hk'⟩ := h' _ (Loop.legal_const 1)
  have h₁ := hk (((Stream'.const (.moves 1)).drop k).take k')
  have h₂ := hk' (((Stream'.const (.moves 1)).drop k').take k)
  rw [← Stream'.take_add] at h₁ h₂
  rw [Nat.add_comm, h₁] at h₂
  exact absurd h₂ (by simp)

end Recv

/-- A call of `read_exact` whose result is compared with the count. -/
def recvExact (count : ℕ) (stream : Bytes) (replies : List SysReply) : Recv Bytes :=
  let o := readExact count stream replies
  match returned o with
  | none => .waiting
  | some n => if n = count then .got o.moved o.source o.replies else .lost o.source o.replies

/-- `read_frame`, call by call. -/
def recvFrame (stream : Bytes) (replies : List SysReply) : Recv WireFrame :=
  (recvExact FRAME_HEADER_SIZE stream replies).bind fun hdr stream replies =>
    let first4 := ofBe (hdr.take 4)
    if first4 = RAW_DATA_SENTINEL then
      -- the remaining 8 bytes of a raw-data header
      (recvExact 8 stream replies).bind fun rest stream replies =>
        match decodeFrameHeader (hdr ++ rest) with
        | none => .lost stream replies
        | some header =>
          if 0 < header.rawDataLength then
            (recvExact header.rawDataLength stream replies).bind fun payload stream replies =>
              .got ⟨MSG_RAW_DATA, payload⟩ stream replies
          else .got ⟨MSG_RAW_DATA, []⟩ stream replies
    else if 0 < first4 then
      (recvExact first4 stream replies).bind fun payload stream replies =>
        .got ⟨hdr.getD 4 0, payload⟩ stream replies
    else .got ⟨hdr.getD 4 0, []⟩ stream replies

theorem recvExact_stable (count : ℕ) (stream : Bytes) : Recv.Stable (recvExact count stream) := by
  intro replies h more
  have hstatus : (readExact count stream replies).status ≠ .waiting := by
    intro hw
    apply h
    simp [recvExact, returned, hw]
  have hmore := Loop.run_stable hstatus more
  rw [recvExact, readExact, hmore, recvExact]
  change (match returned (readExact count stream replies) with
    | none => Recv.waiting
    | some n => if n = count then _ else _) = _
  cases hr : returned (readExact count stream replies) with
  | none => rfl
  | some n =>
    simp only
    split <;> rfl

theorem recvExact_delivers {count : ℕ} {stream bs rest : Bytes} (hcount : count < 2 ^ 32)
    (h : BigEndian.readExact count stream = some (bs, rest)) :
    Recv.Delivers (recvExact count stream) bs rest := by
  intro σ hσ
  obtain ⟨hlen, rfl⟩ := readExact_eq_some_iff.mp h
  obtain ⟨k, hk⟩ := @readExact_of_lt count (bs ++ rest) σ hcount (by simp [hlen]) hσ
  refine ⟨k, fun more => ?_⟩
  rw [List.take_left' hlen, List.drop_left' hlen] at hk
  have hret : returned ⟨bs, rest, more, .done⟩ = some (count : ℤ) := by simp [returned, hlen]
  rw [recvExact, hk, hret]
  exact if_pos rfl

/-- The last read of a frame. -/
theorem recvPayload_delivers {count : ℕ} {stream payload rest : Bytes} (type : UInt8)
    (hlen : payload.length < 2 ^ 32)
    (h : BigEndian.readExact count stream = some (payload, rest)) :
    Recv.Delivers (fun replies => (recvExact count stream replies).bind
      fun payload stream replies => .got (⟨type, payload⟩ : WireFrame) stream replies)
      ⟨type, payload⟩ rest := by
  have hcount : count < 2 ^ 32 := (readExact_eq_some_iff.mp h).1 ▸ hlen
  exact (recvExact_delivers hcount h).bind (Recv.delivers_got _ _)

/-- A read that is not exact is lost. -/
theorem recvExact_eq_lost {count : ℕ} {stream moved source : Bytes} {replies more : List SysReply}
    {status : Status} (hread : readExact count stream replies = ⟨moved, source, more, status⟩)
    (hstatus : status = .done ∨ status = .short) (hlen : moved.length ≠ count) :
    recvExact count stream replies = .lost source more := by
  have hret : returned ⟨moved, source, more, status⟩ = some (moved.length : ℤ) := by
    rcases hstatus with rfl | rfl <;> rfl
  rw [recvExact, hread]
  simp only [hret]
  exact if_neg fun h => hlen (Int.ofNat.inj h)

/-- A read of more than there is takes all of it, and fails. -/
theorem recvExact_fails {count : ℕ} {stream : Bytes} (hcount : count < 2 ^ 32)
    (hlen : stream.length < count) : Recv.Fails (· = []) (recvExact count stream) := by
  intro σ hσ
  obtain ⟨k, hk⟩ := Loop.run_short_of_legal (l := exactLoop) (r := count) rfl (by decide) hσ
    (fun _ h₁ h₂ => lengthArgument_pos h₁ (by omega)) hlen
  exact ⟨k, [], rfl, fun more => recvExact_eq_lost (hk more) (.inr rfl) (by omega)⟩

/-- So does, of whatever there is, a read of `2^32` bytes or more. -/
theorem recvExact_fails_of_ge {count : ℕ} (hcount : 2 ^ 32 ≤ count) (stream : Bytes) :
    Recv.Fails (fun _ => True) (recvExact count stream) := by
  intro σ hσ
  obtain ⟨k, moved, source, status, hstatus, hk⟩ :=
    Loop.run_ends_of_legal (l := exactLoop) rfl hσ count stream
  refine ⟨k, source, trivial, fun more => recvExact_eq_lost (hk more) hstatus ?_⟩
  have hmoved : (readExact count stream (σ.take k ++ more)).moved = moved :=
    congrArg Outcome.moved (hk more)
  have hbarrier := length_readExact_of_ge hcount stream (σ.take k ++ more)
  rw [hmoved] at hbarrier
  omega

/-- And in any case a read of more than there is. -/
theorem recvExact_fails_of_short {count : ℕ} {stream : Bytes} (hlen : stream.length < count) :
    Recv.Fails (fun _ => True) (recvExact count stream) := by
  by_cases hcount : count < 2 ^ 32
  · exact (recvExact_fails hcount hlen).imp fun _ _ => trivial
  · exact recvExact_fails_of_ge (by omega) stream

theorem recvFrame_stable (stream : Bytes) : Recv.Stable (recvFrame stream) := by
  refine (recvExact_stable _ _).bind fun hdr stream => ?_
  simp only
  split
  · refine (recvExact_stable _ _).bind fun rest stream => ?_
    cases decodeFrameHeader (hdr ++ rest) with
    | none => exact fun _ _ _ => rfl
    | some header =>
      simp only
      split
      · exact (recvExact_stable _ _).bind fun _ _ => Recv.stable_got _ _
      · exact Recv.stable_got _ _
  · split
    · exact (recvExact_stable _ _).bind fun _ _ => Recv.stable_got _ _
    · exact Recv.stable_got _ _

/-- **The reader on a socket refines the reader on a stream**, for frames of less than
`2^32` bytes: whatever pieces the bytes come in, the frame is the one at the head of the
stream. -/
theorem recvFrame_delivers {stream rest : Bytes} {f : WireFrame}
    (h : readFrame stream = some (f, rest)) (hlen : f.payload.length < 2 ^ 32) :
    Recv.Delivers (recvFrame stream) f rest := by
  unfold readFrame at h
  obtain ⟨⟨hdr, s₁⟩, h₁, h⟩ := Option.bind_eq_some_iff.mp h
  refine (recvExact_delivers (by decide) h₁).bind ?_
  simp only at h ⊢
  split at h
  · next hraw =>
    simp only [if_pos hraw]
    obtain ⟨⟨more, s₂⟩, h₂, h⟩ := Option.bind_eq_some_iff.mp h
    obtain ⟨header, h₃, h⟩ := Option.bind_eq_some_iff.mp h
    -- the rest of the long header, which gives the length
    refine (recvExact_delivers (by decide) h₂).bind ?_
    simp only [h₃]
    split at h
    · next hpos =>
      obtain ⟨⟨payload, s₃⟩, h₄, h⟩ := Option.bind_eq_some_iff.mp h
      obtain ⟨rfl, rfl⟩ := Prod.mk.inj (Option.some.inj h)
      simp only [if_pos hpos]
      exact recvPayload_delivers _ hlen h₄
    · next hpos =>
      obtain ⟨rfl, rfl⟩ := Prod.mk.inj (Option.some.inj h)
      simp only [if_neg hpos]
      exact Recv.delivers_got _ _
  · next hraw =>
    simp only [if_neg hraw]
    split at h
    · next hpos =>
      obtain ⟨⟨payload, s₂⟩, h₂, h⟩ := Option.bind_eq_some_iff.mp h
      obtain ⟨rfl, rfl⟩ := Prod.mk.inj (Option.some.inj h)
      simp only [if_pos hpos]
      exact recvPayload_delivers _ hlen h₂
    · next hpos =>
      obtain ⟨rfl, rfl⟩ := Prod.mk.inj (Option.some.inj h)
      simp only [if_neg hpos]
      exact Recv.delivers_got _ _

/-! ### Raw frames of 4 GiB and more -/

/-- Once the header of a raw frame is in, what is left is the read of its bytes. -/
theorem recvFrame_sentinel {hdr len : Bytes} (hhdr : hdr.length = 4)
    (hraw : ofBe hdr = RAW_DATA_SENTINEL) (hlen : len.length = 8) (hpos : 0 < ofBe len) (t : UInt8)
    (s : Bytes) {σ : Stream' SysReply} (hσ : exactLoop.Legal σ) :
    ∃ k, ∀ more, recvFrame (hdr ++ t :: (len ++ s)) (σ.take k ++ more) =
      (recvExact (ofBe len) s more).bind fun payload stream replies =>
        .got ⟨MSG_RAW_DATA, payload⟩ stream replies := by
  have hfirst : BigEndian.readExact FRAME_HEADER_SIZE (hdr ++ t :: (len ++ s)) =
      some (hdr ++ [t], len ++ s) :=
    readExact_eq_some_iff.mpr ⟨by simp [hhdr, FRAME_HEADER_SIZE], by simp⟩
  obtain ⟨k₁, hk₁⟩ := recvExact_delivers (by decide) hfirst σ hσ
  obtain ⟨k₂, hk₂⟩ := recvExact_delivers (by decide) (readExact_append hlen s) (σ.drop k₁)
    (hσ.drop k₁)
  refine ⟨k₁ + k₂, fun more => ?_⟩
  rw [Stream'.take_add, List.append_assoc (σ.take k₁)]
  simp only [recvFrame, hk₁, hk₂, Recv.bind, List.take_left' hhdr, if_pos hraw, if_pos hpos,
    decodeFrameHeader_sentinel hhdr hraw hlen]

/-- A raw frame of `2^32` bytes or more is lost, whatever pieces its bytes come in. -/
theorem recvFrame_fails_of_ge {hdr len : Bytes} (hhdr : hdr.length = 4)
    (hraw : ofBe hdr = RAW_DATA_SENTINEL) (hlen : len.length = 8) (hbig : 2 ^ 32 ≤ ofBe len)
    (t : UInt8) (s : Bytes) :
    Recv.Fails (fun _ => True) (recvFrame (hdr ++ t :: (len ++ s))) := by
  intro σ hσ
  obtain ⟨k₁, hk₁⟩ := recvFrame_sentinel hhdr hraw hlen (by omega) t s hσ
  obtain ⟨k₂, unread, -, hk₂⟩ := recvExact_fails_of_ge hbig s (σ.drop k₁) (hσ.drop k₁)
  refine ⟨k₁ + k₂, unread, trivial, fun more => ?_⟩
  rw [Stream'.take_add, List.append_assoc (σ.take k₁), hk₁, hk₂]
  rfl

/-- The same of a raw frame as the server's encoder writes it. -/
theorem recvFrame_raw_fails {payload : Bytes} (hbig : 2 ^ 32 ≤ payload.length)
    (hlen : payload.length < 2 ^ 64) (rest : Bytes) : Recv.Fails (fun _ => True)
      (recvFrame (encodeRawDataHeader payload.length ++ payload ++ rest)) := by
  have hbytes : encodeRawDataHeader payload.length ++ payload ++ rest =
      be 4 RAW_DATA_SENTINEL ++ MSG_RAW_DATA ::
        (be 8 (payload.length % 2 ^ 64) ++ (payload ++ rest)) := by
    simp [encodeRawDataHeader]
  rw [hbytes]
  exact recvFrame_fails_of_ge (length_be 4 _) ofBe_be_sentinel (length_be 8 _)
    (by rw [ofBe_be_rawLength hlen]; exact hbig) _ _

/-- The read of `count` bytes is exact: on every legal schedule it returns `count`, with the
first `count` bytes of the stream in the buffer. -/
def ReadsExactly (count : ℕ) (stream : Bytes) : Prop :=
  ∀ σ : Stream' SysReply, exactLoop.Legal σ →
    ∃ k, returned (readExact count stream (σ.take k)) = some (count : ℤ) ∧
      (readExact count stream (σ.take k)).moved = stream.take count

/-- The raw frame with these bytes is read completely, on every legal schedule. -/
def ReadsRawFrame (payload rest : Bytes) : Prop :=
  ∀ σ : Stream' SysReply, exactLoop.Legal σ →
    ∃ k replies, recvFrame (encodeRawDataHeader payload.length ++ payload ++ rest) (σ.take k) =
      .got ⟨MSG_RAW_DATA, payload⟩ rest replies

theorem readsExactly_of_lt {count : ℕ} {stream : Bytes} (hcount : count < 2 ^ 32)
    (hlen : count ≤ stream.length) : ReadsExactly count stream := by
  intro σ hσ
  obtain ⟨k, hk⟩ := readExact_of_lt hcount hlen hσ
  have hk' := hk []
  rw [List.append_nil] at hk'
  refine ⟨k, ?_, by rw [hk']⟩
  rw [hk']
  simp [returned, hlen]

theorem not_readsExactly {count : ℕ} (hcount : 2 ^ 32 ≤ count) (stream : Bytes) :
    ¬ ReadsExactly count stream := by
  intro h
  obtain ⟨k, hk, -⟩ := h _ (Loop.legal_const 1)
  have hbarrier := length_readExact_of_ge hcount stream ((Stream'.const (.moves 1)).take k)
  -- a read that returns the count has moved as much
  unfold returned at hk
  split at hk
  · exact absurd hk (by simp)
  · have := Int.ofNat.inj (Option.some.inj hk)
    omega
  · have := Int.ofNat.inj (Option.some.inj hk)
    omega
  · have := Option.some.inj hk
    omega

/-- **Exact reads of any size.** On every stream that has the bytes, a read of `count` bytes
is exact on every schedule if and only if `count` is below `2^32`, and so is the read of
every raw frame of that size. -/
theorem reads_exactly_iff {count : ℕ} (hcount : count < 2 ^ 63) :
    (∀ stream : Bytes, count ≤ stream.length → (ReadsExactly count stream ↔ count < 2 ^ 32)) ∧
    ∀ payload rest : Bytes, payload.length = count →
      (ReadsRawFrame payload rest ↔ count < 2 ^ 32) := by
  constructor
  · intro stream hlen
    constructor
    · intro h
      by_contra hc
      exact not_readsExactly (by omega) stream h
    · intro hlt
      exact readsExactly_of_lt hlt hlen
  · rintro payload rest rfl
    constructor
    · intro h
      by_contra hc
      have hbig : 2 ^ 32 ≤ payload.length := by omega
      obtain ⟨k, replies, hk⟩ := h _ (Loop.legal_const 1)
      obtain ⟨k', unread, -, hk'⟩ := recvFrame_raw_fails hbig (by omega) rest _
        (Loop.legal_const 1)
      have hlost := hk' []
      rw [List.append_nil] at hlost
      exact (recvFrame_stable _).got_ne_lost hlost hk
    · intro hlt σ hσ
      have hread := readFrame_encode (.raw payload (by omega)) rest
      obtain ⟨k, hk⟩ := recvFrame_delivers hread hlt σ hσ
      have hk' := hk []
      rw [List.append_nil] at hk'
      exact ⟨k, [], hk'⟩

theorem reads_exactly_iff_of_five :
    5 < 2 ^ 63 ∧ ReadsExactly 5 [1, 2, 3, 4, 5] :=
  ⟨by decide, ((@reads_exactly_iff 5 (by decide)).1 _ le_rfl).mpr (by decide)⟩

/-- A read of exactly 4 GiB asks for zero bytes and returns zero at once. -/
theorem read_of_four_gib_fails :
    ¬ ∀ (count : ℕ) (stream : Bytes) (σ : Stream' SysReply), count < 2 ^ 63 →
      count ≤ stream.length → exactLoop.Legal σ →
      ∃ k, returned (readExact count stream (σ.take k)) = some (count : ℤ) ∧
        (readExact count stream (σ.take k)).moved = stream.take count := by
  intro h
  have hlen : 2 ^ 32 ≤ (List.replicate (2 ^ 32) (0 : UInt8)).length :=
    le_of_eq List.length_replicate.symm
  have hread : ReadsExactly (2 ^ 32) (List.replicate (2 ^ 32) 0) := fun σ hσ =>
    h (2 ^ 32) _ σ (by decide) hlen hσ
  exact not_readsExactly le_rfl _ hread

/-! ### Frames that are not complete -/

/-- A raw frame at the head of the stream, or the beginning of one, announces less than
4 GiB. -/
def Moderate (stream : Bytes) : Prop :=
  ∀ hdr t len s, stream = hdr ++ t :: (len ++ s) → hdr.length = 4 → ofBe hdr = RAW_DATA_SENTINEL →
    len.length = 8 → ofBe len < 2 ^ 32

theorem moderate_nil : Moderate [] :=
  fun hdr t len s h => absurd h.symm (by simp)

/-- Where the stream has no frame, the last of the reads finds too little. -/
theorem recvFrame_fails_with {P : Bytes → Prop} {stream : Bytes} (h : readFrame stream = none)
    (hP : ∀ {count : ℕ} {s : Bytes}, s.length < count → (Moderate stream → count < 2 ^ 32) →
      Recv.Fails P (recvExact count s)) : Recv.Fails P (recvFrame stream) := by
  have hheader : ∀ {hdr : Bytes} (t : UInt8) (s : Bytes), hdr.length = 4 →
      Recv.Delivers (recvExact FRAME_HEADER_SIZE (hdr ++ t :: s)) (hdr ++ [t]) s :=
    fun t s hlen => recvExact_delivers (by decide)
      (readExact_eq_some_iff.mpr ⟨by simp [hlen, FRAME_HEADER_SIZE], by simp⟩)
  cases headerCases stream with
  | short hs => exact (hP hs fun _ => by decide).bind_left _
  | @standard hdr hlen hne t s =>
    rw [readFrame_standard hlen hne, Option.map_eq_none_iff] at h
    have hs := length_lt_of_readExact h
    have hsmall : ofBe hdr < 2 ^ 32 := by
      have := ofBe_lt hdr
      rw [hlen] at this
      omega
    refine Recv.Fails.bind (hheader t s hlen) ?_
    simp only [List.take_left' hlen, if_neg hne, if_pos (Nat.zero_lt_of_lt hs)]
    exact (hP hs fun _ => hsmall).bind_left _
  | @shortRaw hdr s hhdr hraw t hs =>
    refine Recv.Fails.bind (hheader t s hhdr) ?_
    simp only [List.take_left' hhdr, if_pos hraw]
    exact (hP hs fun _ => by decide).bind_left _
  | @raw hdr len hhdr hraw hlen t s =>
    rw [readFrame_sentinel hhdr hraw hlen, Option.map_eq_none_iff] at h
    have hs := length_lt_of_readExact h
    refine Recv.Fails.bind (hheader t _ hhdr) ?_
    simp only [List.take_left' hhdr, if_pos hraw]
    refine Recv.Fails.bind (recvExact_delivers (by decide) (readExact_append hlen s)) ?_
    simp only [decodeFrameHeader_sentinel hhdr hraw hlen, if_pos (Nat.zero_lt_of_lt hs)]
    exact (hP hs fun hmod => hmod hdr t len s rfl hhdr hraw hlen).bind_left _

theorem recvFrame_fails {stream : Bytes} (h : readFrame stream = none) :
    Recv.Fails (fun _ => True) (recvFrame stream) :=
  recvFrame_fails_with h fun hs _ => recvExact_fails_of_short hs

/-- **A frame that is not complete is lost with all of its bytes.** -/
theorem recvFrame_fails_of_moderate {stream : Bytes} (h : readFrame stream = none)
    (hmod : Moderate stream) : Recv.Fails (· = []) (recvFrame stream) :=
  recvFrame_fails_with h fun hs hcount => recvExact_fails (hcount hmod) hs

end WireProtocol

/-! ### The two readers -/

/-- The stream begins with a complete raw frame with this type byte and these bytes. -/
def BeginsRaw (stream : Bytes) (t : UInt8) (payload : Bytes) : Prop :=
  ∃ hdr len rest, stream = hdr ++ t :: (len ++ (payload ++ rest)) ∧ hdr.length = 4 ∧
    ofBe hdr = RAW_DATA_SENTINEL ∧ len.length = 8 ∧ ofBe len = payload.length

/-- The server's reader does with the stream what the client's does, whatever pieces the bytes
come in: both fail, or both succeed with one frame and leave the same bytes. -/
def ReadersAgree (stream : Bytes) : Prop :=
  match Wire.readFrame? stream with
  | some (frame, rest) => WireProtocol.Recv.Delivers (WireProtocol.recvFrame stream) frame rest
  | none => WireProtocol.Recv.Fails (fun _ => True) (WireProtocol.recvFrame stream)

section Readers

open WireProtocol

theorem readersAgree_of_some {stream rest : Bytes} {f : WireFrame}
    (h : Wire.readFrame? stream = some (f, rest)) :
    ReadersAgree stream ↔ Recv.Delivers (recvFrame stream) f rest := by
  unfold ReadersAgree
  rw [h]

theorem readersAgree_of_none {stream : Bytes} (h : Wire.readFrame? stream = none)
    (h' : WireProtocol.readFrame stream = none) : ReadersAgree stream := by
  unfold ReadersAgree
  rw [h]
  exact recvFrame_fails h'

/-- A complete raw frame is read alike when its type is that of raw data and it is of less than
`2^32` bytes. -/
theorem readersAgree_raw_iff {hdr len payload : Bytes} (hhdr : hdr.length = 4)
    (hraw : ofBe hdr = RAW_DATA_SENTINEL) (hlen : len.length = 8)
    (hpayload : ofBe len = payload.length) (t : UInt8) (rest : Bytes) :
    ReadersAgree (hdr ++ t :: (len ++ (payload ++ rest))) ↔
      t = MSG_RAW_DATA ∧ payload.length < 2 ^ 32 := by
  have hclient : Wire.readFrame? (hdr ++ t :: (len ++ (payload ++ rest))) =
      some (⟨t, payload⟩, rest) := by
    rw [Wire.readFrame?_sentinel hhdr hraw hlen, hpayload, readExact_append rfl]
    rfl
  have hserver : WireProtocol.readFrame (hdr ++ t :: (len ++ (payload ++ rest))) =
      some (⟨MSG_RAW_DATA, payload⟩, rest) := by
    rw [WireProtocol.readFrame_sentinel hhdr hraw hlen, hpayload, readExact_append rfl]
    rfl
  rw [readersAgree_of_some hclient]
  constructor
  · intro h
    have hsmall : payload.length < 2 ^ 32 := by
      by_contra hbig
      refine h.not_fails (recvFrame_fails_of_ge hhdr hraw hlen ?_ t _)
      omega
    have hframe := (h.unique (recvFrame_delivers hserver hsmall)).1
    exact ⟨(WireFrame.mk.inj hframe).1, hsmall⟩
  · rintro ⟨rfl, hsmall⟩
    exact recvFrame_delivers hserver hsmall

/-- **The two readers agree if and only if** a complete raw frame at the head of the stream is
of the type of raw data and of less than `2^32` bytes: behind the sentinel the server's reader
takes every frame for raw data, and it gives up on the longer ones. -/
theorem readers_agree_iff (stream : Bytes) :
    ReadersAgree stream ↔
      ∀ t payload, BeginsRaw stream t payload → t = MSG_RAW_DATA ∧ payload.length < 2 ^ 32 := by
  constructor
  · rintro hagree t payload ⟨hdr, len, rest, rfl, hhdr, hraw, hlen, hpayload⟩
    exact (readersAgree_raw_iff hhdr hraw hlen hpayload t rest).mp hagree
  intro h
  cases headerCases stream with
  | short hs => exact readersAgree_of_none (readFrame_short hs).2 (readFrame_short hs).1
  | shortRaw hhdr hraw t hs =>
    exact readersAgree_of_none (readFrame_short_raw hhdr hraw t hs).2
      (readFrame_short_raw hhdr hraw t hs).1
  | @standard hdr hlen hne t s =>
    have hsame : WireProtocol.readFrame (hdr ++ t :: s) = Wire.readFrame? (hdr ++ t :: s) := by
      rw [WireProtocol.readFrame_standard hlen hne, Wire.readFrame?_standard hlen hne]
    cases hread : Wire.readFrame? (hdr ++ t :: s) with
    | none => exact readersAgree_of_none hread (hsame.trans hread)
    | some r =>
      obtain ⟨f, rest⟩ := r
      refine (readersAgree_of_some hread).mpr (recvFrame_delivers (hsame.trans hread) ?_)
      -- the length field has four bytes
      rw [Wire.readFrame?_standard hlen hne] at hread
      obtain ⟨⟨payload, rest'⟩, hexact, hframe⟩ := Option.map_eq_some_iff.mp hread
      obtain ⟨rfl, rfl⟩ := Prod.mk.inj hframe
      have hlt := ofBe_lt hdr
      have heq := (readExact_eq_some_iff.mp hexact).1
      rw [hlen] at hlt
      simp only
      omega
  | @raw hdr len hhdr hraw hlen t s =>
    cases hread : BigEndian.readExact (ofBe len) s with
    | none =>
      refine readersAgree_of_none ?_ ?_
      · rw [Wire.readFrame?_sentinel hhdr hraw hlen, hread]
        rfl
      · rw [WireProtocol.readFrame_sentinel hhdr hraw hlen, hread]
        rfl
    | some r =>
      obtain ⟨payload, rest⟩ := r
      obtain ⟨hpayload, rfl⟩ := readExact_eq_some_iff.mp hread
      exact (readersAgree_raw_iff hhdr hraw hlen hpayload.symm t rest).mpr
        (h t payload ⟨hdr, len, rest, rfl, hhdr, hraw, hlen, hpayload.symm⟩)

/-- An empty raw frame with the type byte `1`. -/
theorem readers_disagree : ¬ ∀ stream : Bytes, ReadersAgree stream := by
  intro h
  have hagree := (@readersAgree_raw_iff [0xFF, 0xFF, 0xFF, 0xFF] [0, 0, 0, 0, 0, 0, 0, 0] []
    rfl rfl rfl rfl 1 []).mp (h _)
  exact absurd hagree.1 (by decide)

end Readers

end AdaptiveSync
