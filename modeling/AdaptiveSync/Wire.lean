import AdaptiveSync.Lib.BigEndian
import AdaptiveSync.Lib.Except
import AdaptiveSync.Messages

/-!
# The two frame codecs

`server/include/wire_protocol.h` and `client/src/wire.rs` each encode and read the wire
frames of the protocol, in two languages:

* a standard frame is `length (4 bytes) ++ type (1 byte) ++ payload`;
* a raw-data frame is `0xFFFFFFFF ++ 0xFE ++ length (8 bytes) ++ bytes`.

The length word of a standard frame doubles as the sentinel of a raw one, so a payload
of `0xFFFFFFFF` bytes cannot be framed. The C++ reader takes the header as `5 + 8` bytes,
the Rust reader as `4 + 9` or `4 + 1`.

A stream is the bytes that are still to come, followed by its end; an exact read
delivers the next `n` bytes or fails (`BigEndian.readExact`).

What a reader makes of a stream depends on how its header looks (`HeaderCases`), and each
reader has one equation for each case. They differ in one place: the C++ reader takes every
frame behind the sentinel for raw data.

Both readers are shown to invert both encoders on whole streams, and to fail on every
strict prefix of a frame: by `WireProtocol.readFrame_encode` and `Wire.readFrame_encode`, one
frame at the head of any stream, and by `WireProtocol.readFrame_mono` and
`Wire.readFrame?_mono`, since a reader does not look ahead. The rest is an induction over the
sequence of frames.
-/

namespace AdaptiveSync

open BigEndian

def RAW_DATA_SENTINEL : ℕ := 0xFFFFFFFF
def MSG_RAW_DATA : UInt8 := 0xFE
def FRAME_HEADER_SIZE : ℕ := 5
def RAW_HEADER_SIZE : ℕ := 13

/-- A decoded frame: its type byte and its payload. -/
structure WireFrame where
  messageType : UInt8
  payload : Bytes
  deriving DecidableEq

/-! ### The C++ codec -/

namespace WireProtocol

/-- `encode_frame`. The length is cast to 32 bits. -/
def encodeFrame (frame : WireFrame) : Bytes :=
  be 4 (frame.payload.length % 2 ^ 32) ++ [frame.messageType] ++ frame.payload

/-- `encode_raw_data_header`. -/
def encodeRawDataHeader (rawLength : ℕ) : Bytes :=
  be 4 RAW_DATA_SENTINEL ++ [MSG_RAW_DATA] ++ be 8 (rawLength % 2 ^ 64)

/-- `FrameHeader`. -/
structure FrameHeader where
  payloadLength : ℕ
  messageType : UInt8
  isRawData : Bool
  rawDataLength : ℕ

/-- `decode_frame_header`; `none` where it throws on a header that is too short. -/
def decodeFrameHeader (data : Bytes) : Option FrameHeader :=
  if data.length < FRAME_HEADER_SIZE then none
  else
    let first4 := ofBe (data.take 4)
    if first4 = RAW_DATA_SENTINEL then
      if data.length < RAW_HEADER_SIZE then none
      else some {
        isRawData := true
        messageType := data.getD 4 0
        rawDataLength := ofBe ((data.drop 5).take 8)
        payloadLength := 0 }
    else some {
      isRawData := false
      payloadLength := first4
      messageType := data.getD 4 0
      rawDataLength := 0 }

/-- `read_frame`, over reads that hand over what they are asked for: the frame at the head of
the stream and what is left of it. What its `read_exact` makes of raw data of `2 ^ 32` bytes and
more is seen where its calls are (`recvFrame`). -/
def readFrame (stream : Bytes) : Option (WireFrame × Bytes) := do
  let (hdr, stream) ← readExact FRAME_HEADER_SIZE stream
  let first4 := ofBe (hdr.take 4)
  if first4 = RAW_DATA_SENTINEL then
    -- the remaining 8 bytes of a raw-data header
    let (rest, stream) ← readExact 8 stream
    let header ← decodeFrameHeader (hdr ++ rest)
    if 0 < header.rawDataLength then
      let (payload, stream) ← readExact header.rawDataLength stream
      some (⟨MSG_RAW_DATA, payload⟩, stream)
    else some (⟨MSG_RAW_DATA, []⟩, stream)
  else if 0 < first4 then
    let (payload, stream) ← readExact first4 stream
    some (⟨hdr.getD 4 0, payload⟩, stream)
  else some (⟨hdr.getD 4 0, []⟩, stream)

end WireProtocol

/-! ### The Rust codec -/

namespace Wire

/-- `encode_frame`; `typeByte` is the message type cast to a byte. -/
def encodeFrame (typeByte : UInt8) (payload : Bytes) : Bytes :=
  be 4 (payload.length % 2 ^ 32) ++ typeByte :: payload

/-- `encode_raw_data_header`. -/
def encodeRawDataHeader (rawLength : ℕ) : Bytes :=
  be 4 RAW_DATA_SENTINEL ++ MSG_RAW_DATA :: be 8 (rawLength % 2 ^ 64)

/-- `read_exact`, with the error text of the call. A stream that ends early is all that
can go wrong. -/
def readExactOr (what : String) (n : ℕ) (stream : Bytes) :
    Except ClientError (Bytes × Bytes) :=
  match readExact n stream with
  | some r => .ok r
  | none => .error (.connection ("Failed to read " ++ what ++ ": early eof"))

/-- `read_frame`. -/
def readFrame (stream : Bytes) : Except ClientError (WireFrame × Bytes) := do
  let (lenBuf, stream) ← readExactOr "frame length" 4 stream
  let payloadLen := ofBe lenBuf
  if payloadLen = RAW_DATA_SENTINEL then
    let (rest, stream) ← readExactOr "raw header" 9 stream
    -- the type byte is taken from the stream
    let msgType := rest.getD 0 0
    let rawLen := ofBe ((rest.drop 1).take 8)
    let (rawData, stream) ← readExactOr "raw data" rawLen stream
    return (⟨msgType, rawData⟩, stream)
  else
    let (typeBuf, stream) ← readExactOr "frame type" 1 stream
    if 0 < payloadLen then
      let (payload, stream) ← readExactOr "frame payload" payloadLen stream
      return (⟨typeBuf.getD 0 0, payload⟩, stream)
    else return (⟨typeBuf.getD 0 0, []⟩, stream)

end Wire

/-! ### Frames that can be sent -/

/-- A frame that can be put on the wire. The bounds are those of the length fields. -/
inductive Frame where
  | standard (messageType : UInt8) (payload : Bytes) (h : payload.length < RAW_DATA_SENTINEL)
  | raw (bytes : Bytes) (h : bytes.length < 2 ^ 64)

namespace Frame

/-- What a reader makes of the frame. -/
def content : Frame → WireFrame
  | .standard t p _ => ⟨t, p⟩
  | .raw bs _ => ⟨MSG_RAW_DATA, bs⟩

/-- The frame as the C++ side writes it. -/
def encodeCpp : Frame → Bytes
  | .standard t p _ => WireProtocol.encodeFrame ⟨t, p⟩
  | .raw bs _ => WireProtocol.encodeRawDataHeader bs.length ++ bs

/-- The frame as the Rust side writes it. -/
def encodeRust : Frame → Bytes
  | .standard t p _ => Wire.encodeFrame t p
  | .raw bs _ => Wire.encodeRawDataHeader bs.length ++ bs

/-- The two encoders write the same bytes. -/
theorem encodeCpp_eq_encodeRust (f : Frame) : f.encodeCpp = f.encodeRust := by
  cases f with
  | standard t p h => simp [encodeCpp, encodeRust, WireProtocol.encodeFrame, Wire.encodeFrame]
  | raw bs h =>
    simp [encodeCpp, encodeRust, WireProtocol.encodeRawDataHeader, Wire.encodeRawDataHeader]

end Frame

theorem ofBe_be_length {p : Bytes} (h : p.length < RAW_DATA_SENTINEL) :
    ofBe (be 4 (p.length % 2 ^ 32)) = p.length := by
  have h32 : p.length < 2 ^ 32 := by unfold RAW_DATA_SENTINEL at h; omega
  rw [Nat.mod_eq_of_lt h32]
  exact ofBe_be_of_lt (by norm_num; omega)

theorem ofBe_be_rawLength {bs : Bytes} (h : bs.length < 2 ^ 64) :
    ofBe (be 8 (bs.length % 2 ^ 64)) = bs.length := by
  rw [Nat.mod_eq_of_lt h]
  exact ofBe_be_of_lt (by norm_num; omega)

theorem ofBe_be_sentinel : ofBe (be 4 RAW_DATA_SENTINEL) = RAW_DATA_SENTINEL := by decide

/-! ### The two readers, read by read -/

/-- The Rust reader, with its error texts forgotten. -/
def Wire.readFrame? (stream : Bytes) : Option (WireFrame × Bytes) := (readFrame stream).toOption

theorem Wire.readFrame?_eq_some_iff {s r : Bytes} {f : WireFrame} :
    readFrame? s = some (f, r) ↔ readFrame s = .ok (f, r) := by
  unfold readFrame?
  cases readFrame s with
  | error e => simp [Except.toOption]
  | ok a => simp [Except.toOption]

section Readers

variable {hdr len s : Bytes} {t : UInt8}

theorem WireProtocol.readFrame_standard (hlen : hdr.length = 4) (hne : ofBe hdr ≠ RAW_DATA_SENTINEL)
    (t : UInt8) (s : Bytes) :
    readFrame (hdr ++ t :: s) = (readExact (ofBe hdr) s).map fun r => (⟨t, r.1⟩, r.2) := by
  have hhdr : readExact FRAME_HEADER_SIZE (hdr ++ t :: s) = some (hdr ++ [t], s) :=
    readExact_eq_some_iff.mpr ⟨by simp [hlen, FRAME_HEADER_SIZE], by simp⟩
  have htype : (hdr ++ [t]).getD 4 0 = t := by
    rw [List.getD_eq_getElem?_getD, List.getElem?_append_right (by rw [hlen])]
    simp [hlen]
  simp only [readFrame, hhdr, Option.bind_eq_bind, Option.bind_some, List.take_left' hlen, htype,
    if_neg hne]
  by_cases hpos : 0 < ofBe hdr
  · rw [if_pos hpos, Option.map_eq_bind]
    rfl
  · rw [if_neg hpos, Nat.eq_zero_of_not_pos hpos, readExact_zero]
    rfl

theorem WireProtocol.decodeFrameHeader_sentinel (hhdr : hdr.length = 4)
    (hraw : ofBe hdr = RAW_DATA_SENTINEL) (hlen : len.length = 8) (t : UInt8) :
    decodeFrameHeader (hdr ++ [t] ++ len) = some ⟨0, t, true, ofBe len⟩ := by
  have htotal : (hdr ++ [t] ++ len).length = 13 := by simp [hhdr, hlen]
  have htake : (hdr ++ [t] ++ len).take 4 = hdr := by
    rw [List.append_assoc]
    exact List.take_left' hhdr
  have hdrop : (hdr ++ [t] ++ len).drop 5 = len := List.drop_left' (by simp [hhdr])
  have htype : (hdr ++ [t] ++ len).getD 4 0 = t := by
    rw [List.append_assoc, List.getD_eq_getElem?_getD,
      List.getElem?_append_right (by rw [hhdr])]
    simp [hhdr]
  unfold decodeFrameHeader
  rw [if_neg (by rw [htotal]; decide), htake, if_pos hraw, if_neg (by rw [htotal]; decide), hdrop,
    List.take_of_length_le hlen.le, htype]

theorem WireProtocol.readFrame_sentinel (hhdr : hdr.length = 4)
    (hraw : ofBe hdr = RAW_DATA_SENTINEL) (hlen : len.length = 8) (t : UInt8) (s : Bytes) :
    readFrame (hdr ++ t :: (len ++ s)) =
      (readExact (ofBe len) s).map fun r => (⟨MSG_RAW_DATA, r.1⟩, r.2) := by
  have h₁ : readExact FRAME_HEADER_SIZE (hdr ++ t :: (len ++ s)) = some (hdr ++ [t], len ++ s) :=
    readExact_eq_some_iff.mpr ⟨by simp [hhdr, FRAME_HEADER_SIZE], by simp⟩
  simp only [readFrame, h₁, Option.bind_eq_bind, Option.bind_some, List.take_left' hhdr,
    if_pos hraw, readExact_append hlen, decodeFrameHeader_sentinel hhdr hraw hlen]
  by_cases hpos : 0 < ofBe len
  · rw [if_pos hpos, Option.map_eq_bind]
    rfl
  · rw [if_neg hpos, Nat.eq_zero_of_not_pos hpos, readExact_zero]
    rfl

theorem Wire.readExactOr_eq_ok {what : String} {n : ℕ} {bs r : Bytes}
    (h : readExact n s = some (bs, r)) : readExactOr what n s = .ok (bs, r) := by
  rw [readExactOr, h]

theorem Wire.toOption_readExactOr (what : String) (n : ℕ) (s : Bytes) :
    (readExactOr what n s).toOption = readExact n s := by
  unfold readExactOr
  cases readExact n s with
  | none => rfl
  | some r => rfl

theorem Wire.readFrame?_standard (hlen : hdr.length = 4) (hne : ofBe hdr ≠ RAW_DATA_SENTINEL)
    (t : UInt8) (s : Bytes) :
    readFrame? (hdr ++ t :: s) = (readExact (ofBe hdr) s).map fun r => (⟨t, r.1⟩, r.2) := by
  have h₁ : readExactOr "frame length" 4 (hdr ++ t :: s) = .ok (hdr, t :: s) :=
    readExactOr_eq_ok (readExact_append hlen _)
  have h₂ : readExactOr "frame type" 1 (t :: s) = .ok ([t], s) :=
    readExactOr_eq_ok (@readExact_append 1 [t] rfl s)
  simp only [readFrame?, readFrame, h₁, Except.ok_bind, if_neg hne, h₂]
  by_cases hpos : 0 < ofBe hdr
  · rw [if_pos hpos, ← toOption_readExactOr "frame payload"]
    cases readExactOr "frame payload" (ofBe hdr) s <;> rfl
  · rw [if_neg hpos, Nat.eq_zero_of_not_pos hpos, readExact_zero]
    rfl

theorem Wire.readFrame?_sentinel (hhdr : hdr.length = 4)
    (hraw : ofBe hdr = RAW_DATA_SENTINEL) (hlen : len.length = 8) (t : UInt8) (s : Bytes) :
    readFrame? (hdr ++ t :: (len ++ s)) =
      (readExact (ofBe len) s).map fun r => (⟨t, r.1⟩, r.2) := by
  have h₁ : readExactOr "frame length" 4 (hdr ++ t :: (len ++ s)) = .ok (hdr, t :: (len ++ s)) :=
    readExactOr_eq_ok (readExact_append hhdr _)
  -- the type comes in with the length
  have h₂ : readExactOr "raw header" 9 (t :: (len ++ s)) = .ok (t :: len, s) :=
    readExactOr_eq_ok (@readExact_append 9 (t :: len) (by simp [hlen]) s)
  have htake : ((t :: len).drop 1).take 8 = len := List.take_of_length_le hlen.le
  simp only [readFrame?, readFrame, h₁, Except.ok_bind, if_pos hraw, h₂, htake]
  rw [← toOption_readExactOr "raw data"]
  cases readExactOr "raw data" (ofBe len) s <;> rfl

theorem Wire.readExactOr_eq_error {n : ℕ} (h : s.length < n) (what : String) :
    readExactOr what n s = .error (.connection ("Failed to read " ++ what ++ ": early eof")) := by
  rw [readExactOr, readExact_eq_none h]

/-- Both readers fail on a header that breaks off. -/
theorem readFrame_short (h : s.length < FRAME_HEADER_SIZE) :
    WireProtocol.readFrame s = none ∧ Wire.readFrame? s = none := by
  have h₁ : readExact FRAME_HEADER_SIZE s = none := readExact_eq_none h
  refine ⟨by rw [WireProtocol.readFrame, h₁]; rfl, ?_⟩
  unfold FRAME_HEADER_SIZE at h
  by_cases h4 : s.length < 4
  · simp only [Wire.readFrame?, Wire.readFrame, Wire.readExactOr_eq_error h4, Except.error_bind,
      Except.toOption]
  · -- the four bytes of the length are all there is
    have hall : Wire.readExactOr "frame length" 4 s = .ok (s, []) :=
      Wire.readExactOr_eq_ok (readExact_eq_some_iff.mpr ⟨by omega, by simp⟩)
    have hnil : ∀ {n : ℕ} (what : String), 0 < n → Wire.readExactOr what n [] =
        .error (.connection ("Failed to read " ++ what ++ ": early eof")) :=
      fun what hn => Wire.readExactOr_eq_error hn what
    simp only [Wire.readFrame?, Wire.readFrame, hall, Except.ok_bind, hnil _ (Nat.succ_pos _),
      Except.error_bind]
    split <;> rfl

theorem readFrame_short_raw (hhdr : hdr.length = 4) (hraw : ofBe hdr = RAW_DATA_SENTINEL)
    (t : UInt8) (h : s.length < 8) :
    WireProtocol.readFrame (hdr ++ t :: s) = none ∧ Wire.readFrame? (hdr ++ t :: s) = none := by
  have h₁ : readExact FRAME_HEADER_SIZE (hdr ++ t :: s) = some (hdr ++ [t], s) :=
    readExact_eq_some_iff.mpr ⟨by simp [hhdr, FRAME_HEADER_SIZE], by simp⟩
  have h₂ : Wire.readExactOr "frame length" 4 (hdr ++ t :: s) = .ok (hdr, t :: s) :=
    Wire.readExactOr_eq_ok (readExact_append hhdr _)
  have h₃ : (t :: s).length < 9 := Nat.succ_lt_succ h
  constructor
  · simp only [WireProtocol.readFrame, h₁, Option.bind_eq_bind, Option.bind_some,
      List.take_left' hhdr, if_pos hraw, readExact_eq_none h, Option.bind_none]
  · simp only [Wire.readFrame?, Wire.readFrame, h₂, Except.ok_bind, if_pos hraw,
      Wire.readExactOr_eq_error h₃, Except.error_bind, Except.toOption]

end Readers

/-! ### One frame at the head of a stream -/

theorem WireProtocol.readFrame_encode (f : Frame) (rest : Bytes) :
    readFrame (f.encodeCpp ++ rest) = some (f.content, rest) := by
  cases f with
  | standard t p h =>
    have hne : ofBe (be 4 (p.length % 2 ^ 32)) ≠ RAW_DATA_SENTINEL := by
      rw [ofBe_be_length h]
      exact Nat.ne_of_lt h
    have hbytes : (Frame.standard t p h).encodeCpp ++ rest =
        be 4 (p.length % 2 ^ 32) ++ t :: (p ++ rest) := by simp [Frame.encodeCpp, encodeFrame]
    rw [hbytes, readFrame_standard (length_be 4 _) hne, ofBe_be_length h, readExact_append rfl]
    rfl
  | raw bs h =>
    have hbytes : (Frame.raw bs h).encodeCpp ++ rest =
        be 4 RAW_DATA_SENTINEL ++ MSG_RAW_DATA :: (be 8 (bs.length % 2 ^ 64) ++ (bs ++ rest)) := by
      simp [Frame.encodeCpp, encodeRawDataHeader]
    rw [hbytes, readFrame_sentinel (length_be 4 _) ofBe_be_sentinel (length_be 8 _),
      ofBe_be_rawLength h, readExact_append rfl]
    rfl

theorem Wire.readFrame_encode (f : Frame) (rest : Bytes) :
    readFrame (f.encodeRust ++ rest) = .ok (f.content, rest) := by
  refine readFrame?_eq_some_iff.mp ?_
  cases f with
  | standard t p h =>
    have hne : ofBe (be 4 (p.length % 2 ^ 32)) ≠ RAW_DATA_SENTINEL := by
      rw [ofBe_be_length h]
      exact Nat.ne_of_lt h
    have hbytes : (Frame.standard t p h).encodeRust ++ rest =
        be 4 (p.length % 2 ^ 32) ++ t :: (p ++ rest) := by simp [Frame.encodeRust, encodeFrame]
    rw [hbytes, readFrame?_standard (length_be 4 _) hne, ofBe_be_length h, readExact_append rfl]
    rfl
  | raw bs h =>
    have hbytes : (Frame.raw bs h).encodeRust ++ rest =
        be 4 RAW_DATA_SENTINEL ++ MSG_RAW_DATA :: (be 8 (bs.length % 2 ^ 64) ++ (bs ++ rest)) := by
      simp [Frame.encodeRust, encodeRawDataHeader]
    rw [hbytes, readFrame?_sentinel (length_be 4 _) ofBe_be_sentinel (length_be 8 _),
      ofBe_be_rawLength h, readExact_append rfl]
    rfl

/-! ### Headers -/

/-- How the header at the head of a stream can look. -/
inductive HeaderCases : Bytes → Prop
  | short {s : Bytes} (h : s.length < FRAME_HEADER_SIZE) : HeaderCases s
  | standard {hdr : Bytes} (hlen : hdr.length = 4) (hne : ofBe hdr ≠ RAW_DATA_SENTINEL) (t : UInt8)
      (s : Bytes) : HeaderCases (hdr ++ t :: s)
  | shortRaw {hdr s : Bytes} (hhdr : hdr.length = 4) (hraw : ofBe hdr = RAW_DATA_SENTINEL)
      (t : UInt8) (h : s.length < 8) : HeaderCases (hdr ++ t :: s)
  | raw {hdr len : Bytes} (hhdr : hdr.length = 4) (hraw : ofBe hdr = RAW_DATA_SENTINEL)
      (hlen : len.length = 8) (t : UInt8) (s : Bytes) : HeaderCases (hdr ++ t :: (len ++ s))

theorem headerCases (stream : Bytes) : HeaderCases stream := by
  by_cases hshort : stream.length < FRAME_HEADER_SIZE
  · exact .short hshort
  unfold FRAME_HEADER_SIZE at hshort
  have hhdr : (stream.take 4).length = 4 := List.length_take_of_le (by omega)
  obtain ⟨t, s, hs⟩ : ∃ t s, stream.drop 4 = t :: s := by
    cases hd : stream.drop 4 with
    | nil => exact absurd (List.drop_eq_nil_iff.mp hd) (by omega)
    | cons t s => exact ⟨t, s, rfl⟩
  rw [← List.take_append_drop 4 stream, hs]
  by_cases hraw : ofBe (stream.take 4) = RAW_DATA_SENTINEL
  · by_cases h8 : s.length < 8
    · exact .shortRaw hhdr hraw t h8
    · rw [← List.take_append_drop 8 s]
      exact .raw hhdr hraw (List.length_take_of_le (by omega)) t _
  · exact .standard hhdr hraw t s

/-! ### Readers do not look ahead -/

/-- What the C++ reader has read is a header and the payload that it announces. -/
theorem WireProtocol.readFrame_eq_some {s r : Bytes} {f : WireFrame}
    (h : readFrame s = some (f, r)) :
    (∃ hdr, hdr.length = 4 ∧ ofBe hdr ≠ RAW_DATA_SENTINEL ∧ f.payload.length = ofBe hdr ∧
      s = hdr ++ f.messageType :: (f.payload ++ r)) ∨
    ∃ hdr t len, hdr.length = 4 ∧ ofBe hdr = RAW_DATA_SENTINEL ∧ len.length = 8 ∧
      f.payload.length = ofBe len ∧ f.messageType = MSG_RAW_DATA ∧
        s = hdr ++ t :: (len ++ (f.payload ++ r)) := by
  cases headerCases s with
  | short hs => exact absurd ((readFrame_short hs).1.symm.trans h) (by simp)
  | shortRaw hhdr hraw b hs =>
    exact absurd ((readFrame_short_raw hhdr hraw b hs).1.symm.trans h) (by simp)
  | @standard hdr hlen hne b s =>
    rw [readFrame_standard hlen hne] at h
    obtain ⟨⟨payload, rest⟩, hread, hf⟩ := Option.map_eq_some_iff.mp h
    obtain ⟨rfl, rfl⟩ := Prod.mk.inj hf
    obtain ⟨hpayload, rfl⟩ := readExact_eq_some_iff.mp hread
    exact .inl ⟨hdr, hlen, hne, hpayload, rfl⟩
  | @raw hdr len hhdr hraw hlen b s =>
    rw [readFrame_sentinel hhdr hraw hlen] at h
    obtain ⟨⟨payload, rest⟩, hread, hf⟩ := Option.map_eq_some_iff.mp h
    obtain ⟨rfl, rfl⟩ := Prod.mk.inj hf
    obtain ⟨hpayload, rfl⟩ := readExact_eq_some_iff.mp hread
    exact .inr ⟨hdr, b, len, hhdr, hraw, hlen, hpayload, rfl, rfl⟩

theorem WireProtocol.readFrame_mono {s r : Bytes} {f : WireFrame}
    (h : readFrame s = some (f, r)) (t : Bytes) : readFrame (s ++ t) = some (f, r ++ t) := by
  obtain ⟨hdr, hlen, hne, hpayload, rfl⟩ | ⟨hdr, b, len, hhdr, hraw, hlen, hpayload, htype, rfl⟩ :=
    readFrame_eq_some h
  · rw [List.append_assoc, List.cons_append, List.append_assoc, readFrame_standard hlen hne,
      readExact_append hpayload]
    rfl
  · rw [List.append_assoc, List.cons_append, List.append_assoc, List.append_assoc,
      readFrame_sentinel hhdr hraw hlen, readExact_append hpayload, ← htype]
    rfl

theorem Wire.readFrame?_mono {s r : Bytes} {f : WireFrame}
    (h : readFrame? s = some (f, r)) (t : Bytes) : readFrame? (s ++ t) = some (f, r ++ t) := by
  cases headerCases s with
  | short hs => exact absurd ((readFrame_short hs).2.symm.trans h) (by simp)
  | shortRaw hhdr hraw b hs =>
    exact absurd ((readFrame_short_raw hhdr hraw b hs).2.symm.trans h) (by simp)
  | standard hlen hne b s =>
    rw [readFrame?_standard hlen hne] at h
    obtain ⟨⟨payload, rest⟩, hread, hf⟩ := Option.map_eq_some_iff.mp h
    obtain ⟨rfl, rfl⟩ := Prod.mk.inj hf
    rw [List.append_assoc, List.cons_append, readFrame?_standard hlen hne, readExact_mono hread]
    rfl
  | raw hhdr hraw hlen b s =>
    rw [readFrame?_sentinel hhdr hraw hlen] at h
    obtain ⟨⟨payload, rest⟩, hread, hf⟩ := Option.map_eq_some_iff.mp h
    obtain ⟨rfl, rfl⟩ := Prod.mk.inj hf
    rw [List.append_assoc, List.cons_append, List.append_assoc,
      readFrame?_sentinel hhdr hraw hlen, readExact_mono hread]
    rfl

/-! ### Whole streams -/

/-- `n` calls of a reader on one stream: the frames read and what is left. -/
def readFrames (read : Bytes → Option (WireFrame × Bytes)) :
    ℕ → Bytes → Option (List WireFrame × Bytes)
  | 0, stream => some ([], stream)
  | n + 1, stream => do
    let (frame, stream) ← read stream
    let (frames, stream) ← readFrames read n stream
    some (frame :: frames, stream)

theorem readFrames_succ {read : Bytes → Option (WireFrame × Bytes)} {n : ℕ} {s r : Bytes}
    {frames : List WireFrame} :
    readFrames read (n + 1) s = some (frames, r) ↔
      ∃ f s' frames', read s = some (f, s') ∧ readFrames read n s' = some (frames', r) ∧
        frames = f :: frames' := by
  simp only [readFrames, Option.bind_eq_bind, Option.bind_eq_some_iff, Option.some.injEq,
    Prod.exists, Prod.mk.injEq]
  constructor
  · rintro ⟨f, s', hread, frames', r', hrest, rfl, rfl⟩
    exact ⟨f, s', frames', hread, hrest, rfl⟩
  · rintro ⟨f, s', frames', hread, hrest, rfl⟩
    exact ⟨f, s', hread, frames', r, hrest, rfl, rfl⟩

/-- A frame takes at least the bytes of its standard encoding. -/
theorem WireProtocol.length_readFrame {s r : Bytes} {f : WireFrame}
    (h : readFrame s = some (f, r)) : (encodeFrame f).length + r.length ≤ s.length := by
  have hlength : (encodeFrame f).length = 5 + f.payload.length := by
    simp [encodeFrame]
    omega
  obtain ⟨hdr, hlen, -, -, rfl⟩ | ⟨hdr, b, len, hhdr, -, hlen, -, -, rfl⟩ := readFrame_eq_some h
  · simp only [hlength, List.length_append, List.length_cons, hlen]
    omega
  · simp only [hlength, List.length_append, List.length_cons, hhdr, hlen]
    omega

/-- Each frame of a stream has room in it. -/
theorem WireProtocol.length_mem_readFrames {n : ℕ} :
    ∀ {s r : Bytes} {frames : List WireFrame}, readFrames readFrame n s = some (frames, r) →
      ∀ f ∈ frames, (encodeFrame f).length ≤ s.length := by
  induction n with
  | zero =>
    intro s r frames h f hf
    obtain ⟨rfl, -⟩ := Prod.mk.inj (Option.some.inj h)
    exact absurd hf List.not_mem_nil
  | succ n ih =>
    intro s r frames h f hf
    obtain ⟨g, s', frames', hread, hrest, rfl⟩ := readFrames_succ.mp h
    have hlen := length_readFrame hread
    obtain rfl | hf := List.mem_cons.mp hf
    · omega
    · exact (ih hrest f hf).trans (by omega)

/-- A reader that inverts an encoder on one frame, whatever follows, inverts it on every
sequence of frames. -/
theorem readFrames_encode {read : Bytes → Option (WireFrame × Bytes)} {encode : Frame → Bytes}
    (h : ∀ f rest, read (encode f ++ rest) = some (f.content, rest)) (fs : List Frame) :
    readFrames read fs.length (fs.map encode).flatten = some (fs.map Frame.content, []) := by
  induction fs with
  | nil => rfl
  | cons f fs ih =>
    simp only [List.map_cons, List.flatten_cons, List.length_cons, readFrames, h,
      Option.bind_eq_bind, Option.bind_some, ih]

/-- A reader that inverts an encoder and does not look ahead fails on every strict prefix
of an encoded frame: what it read of the prefix, it would also read of the frame, leaving
bytes over. -/
theorem read_eq_none_of_strict {read : Bytes → Option (WireFrame × Bytes)} {encode : Frame → Bytes}
    (h : ∀ f rest, read (encode f ++ rest) = some (f.content, rest))
    (hmono : ∀ {s r : Bytes} {f : WireFrame}, read s = some (f, r) →
      ∀ t, read (s ++ t) = some (f, r ++ t))
    {f : Frame} {p : Bytes} (hp : p <+: encode f) (hne : p ≠ encode f) : read p = none := by
  obtain ⟨t, ht⟩ := hp
  by_contra hc
  obtain ⟨⟨g, r⟩, hg⟩ := Option.ne_none_iff_exists'.mp hc
  -- the frame read off the prefix would be read off the whole, with bytes left over
  have h₁ := hmono hg t
  have h₂ := h f []
  rw [List.append_nil, ← ht, h₁] at h₂
  have hrt : r ++ t = [] := (Prod.mk.inj (Option.some.inj h₂)).2
  have htnil : t = [] := (List.append_eq_nil_iff.mp hrt).2
  exact hne (by rw [← ht, htnil, List.append_nil])

/-- **The two codecs invert each other.** Every sequence of frames written by one side is
read by the other into the same sequence of type bytes and payloads, with no byte left
over, and each reader fails on every strict prefix of a frame of either side. -/
theorem frame_codecs_invert :
    (∀ fs : List Frame, readFrames Wire.readFrame? fs.length (fs.map Frame.encodeCpp).flatten =
      some (fs.map Frame.content, [])) ∧
    (∀ fs : List Frame, readFrames WireProtocol.readFrame fs.length
      (fs.map Frame.encodeRust).flatten = some (fs.map Frame.content, [])) ∧
    (∀ (f : Frame) (p : Bytes), p <+: f.encodeCpp → p ≠ f.encodeCpp →
      WireProtocol.readFrame p = none ∧ Wire.readFrame? p = none) ∧
    (∀ (f : Frame) (p : Bytes), p <+: f.encodeRust → p ≠ f.encodeRust →
      WireProtocol.readFrame p = none ∧ Wire.readFrame? p = none) := by
  -- the encoders agree, so each reader inverts both
  have hcpp : ∀ (f : Frame) (rest : Bytes),
      WireProtocol.readFrame (f.encodeRust ++ rest) = some (f.content, rest) := fun f rest => by
    rw [← f.encodeCpp_eq_encodeRust]; exact WireProtocol.readFrame_encode f rest
  have hrust : ∀ (f : Frame) (rest : Bytes),
      Wire.readFrame? (f.encodeCpp ++ rest) = some (f.content, rest) := fun f rest => by
    rw [f.encodeCpp_eq_encodeRust]
    exact Wire.readFrame?_eq_some_iff.mpr (Wire.readFrame_encode f rest)
  have hstrict : ∀ (f : Frame) (p : Bytes), p <+: f.encodeCpp → p ≠ f.encodeCpp →
      WireProtocol.readFrame p = none ∧ Wire.readFrame? p = none := fun f p hp hne =>
    ⟨read_eq_none_of_strict WireProtocol.readFrame_encode WireProtocol.readFrame_mono hp hne,
      read_eq_none_of_strict hrust Wire.readFrame?_mono hp hne⟩
  refine ⟨readFrames_encode hrust, readFrames_encode hcpp, hstrict, fun f p hp hne => ?_⟩
  rw [← f.encodeCpp_eq_encodeRust] at hp hne
  exact hstrict f p hp hne

end AdaptiveSync
