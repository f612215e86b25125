import AdaptiveSync.Lib.Proto3
import AdaptiveSync.Messages

/-!
# The schema in the wire format

`proto/adaptivesync.proto`, message by message: the field numbers and types of the schema
over the wire format of `Proto3`. Messages to the server are read by the C++ runtime, which
takes a field of an unexpected wire type for an unknown one; messages to the client are read
by `prost`, which rejects it.

`protobuf` is the runtime the two programs use, up to the limit on the size of a message.
-/

namespace AdaptiveSync

open Proto3

/-! ### Values -/

/-- An enumeration value as a varint: sign-extended to 64 bits. -/
def enumNat (code : Int32) : ℕ := code.toInt64.toUInt64.toNat

def enumOfNat (n : ℕ) : Int32 := (UInt64.ofNat n).toInt64.toInt32

@[simp] theorem enumOfNat_enumNat (code : Int32) : enumOfNat (enumNat code) = code := by
  simp [enumOfNat, enumNat]

def TransferMode.code : TransferMode → Int32
  | .unspecified => 0
  | .zeroCopy => 1
  | .deltaSync => 2
  | .unrecognized code _ => code

def TransferMode.ofCode (code : Int32) : TransferMode :=
  if h : Unknown 3 code then .unrecognized code h
  else if code = 1 then .zeroCopy else if code = 2 then .deltaSync else .unspecified

def FileMode.code : FileMode → Int32
  | .unspecified => 0
  | .fresh => 1
  | .modified => 2
  | .unchanged => 3
  | .unrecognized code _ => code

def FileMode.ofCode (code : Int32) : FileMode :=
  if h : Unknown 4 code then .unrecognized code h
  else if code = 1 then .fresh else if code = 2 then .modified
  else if code = 3 then .unchanged else .unspecified

def StatusCode.code : StatusCode → Int32
  | .unspecified => 0
  | .ok => 1
  | .error => 2
  | .fileNotFound => 3
  | .permissionDenied => 4
  | .checksumMismatch => 5
  | .protocolError => 6
  | .busy => 7
  | .unrecognized code _ => code

def StatusCode.ofCode (code : Int32) : StatusCode :=
  if h : Unknown 8 code then .unrecognized code h
  else if code = 1 then .ok else if code = 2 then .error else if code = 3 then .fileNotFound
  else if code = 4 then .permissionDenied else if code = 5 then .checksumMismatch
  else if code = 6 then .protocolError else if code = 7 then .busy else .unspecified

@[simp] theorem TransferMode.ofCode_code (m : TransferMode) : ofCode m.code = m := by
  cases m with
  | unrecognized code h => simp [TransferMode.code, ofCode, h]
  | _ => decide

@[simp] theorem FileMode.ofCode_code (m : FileMode) : ofCode m.code = m := by
  cases m with
  | unrecognized code h => simp [FileMode.code, ofCode, h]
  | _ => decide

@[simp] theorem StatusCode.ofCode_code (m : StatusCode) : ofCode m.code = m := by
  cases m with
  | unrecognized code h => simp [StatusCode.code, ofCode, h]
  | _ => decide

section Fields

variable (strict : Bool) (num : ℕ)

@[simp] def putString (s : String) : List Field := putBytes num (utf8 s)

@[simp] def getString (fs : List Field) : Option String := do
  ofUtf8 (← getBytes strict (valuesAt num fs))

@[simp] def getU32 (fs : List Field) : Option UInt32 :=
  (getNat strict (valuesAt num fs)).map UInt32.ofNat

@[simp] def getU64 (fs : List Field) : Option UInt64 :=
  (getNat strict (valuesAt num fs)).map UInt64.ofNat

@[simp] def getEnum (fs : List Field) : Option Int32 :=
  (getNat strict (valuesAt num fs)).map enumOfNat

@[simp] def getBool (fs : List Field) : Option Bool := (getNat strict (valuesAt num fs)).map (· ≠ 0)

@[simp] def getModes (fs : List Field) : Option (List TransferMode) :=
  (getPacked strict (valuesAt num fs)).map (List.map fun n => TransferMode.ofCode (enumOfNat n))

/-- The messages of a repeated field. -/
@[simp] def getAll {α : Type} (S : Schema α) (fs : List Field) : Option (List α) := do
  (← getMessages strict (valuesAt num fs)).mapM S.decode

/-- The message of a singular field. Several occurrences are merged, which joins their
bytes; without one the message is the default. -/
@[simp] def getOne {α : Type} (S : Schema α) (fs : List Field) : Option α := do
  S.decode (← getMessages strict (valuesAt num fs)).flatten

end Fields

/-! ### Messages -/

namespace Schemas

def fileMetadata (strict : Bool) : Schema FileMetadata where
  fields m := putString 1 m.relativePath ++ putNat 2 m.fileSize.toNat ++
    putNat 3 m.lastModifiedNs.toNat ++ putString 4 m.sha256Hash ++
    putNat 5 (enumNat m.fileMode.code)
  ofFields fs := do
    return {
      relativePath := ← getString strict 1 fs
      fileSize := ← getU64 strict 2 fs
      lastModifiedNs := ← getU64 strict 3 fs
      sha256Hash := ← getString strict 4 fs
      fileMode := ← (getEnum strict 5 fs).map FileMode.ofCode }
  writable m := by simp
  ofFields_fields m := by simp

def blockSignature (strict : Bool) : Schema BlockSignature where
  fields m := putNat 1 m.blockIndex.toNat ++ putNat 2 m.rollingHash.toNat ++
    putString 3 m.strongHash ++ putNat 4 m.blockOffset.toNat ++ putNat 5 m.blockSize.toNat
  ofFields fs := do
    return {
      blockIndex := ← getU32 strict 1 fs
      rollingHash := ← getU32 strict 2 fs
      strongHash := ← getString strict 3 fs
      blockOffset := ← getU64 strict 4 fs
      blockSize := ← getU32 strict 5 fs }
  writable m := by simp
  ofFields_fields m := by simp

def clientHello (strict : Bool) : Schema ClientHello where
  fields m := putNat 1 m.protocolVersion.toNat ++ putString 2 m.clientId ++
    putPacked 3 (m.supportedModes.map fun t => enumNat t.code) ++ putNat 4 m.blockSize.toNat
  ofFields fs := do
    return {
      protocolVersion := ← getU32 strict 1 fs
      clientId := ← getString strict 2 fs
      supportedModes := ← getModes strict 3 fs
      blockSize := ← getU32 strict 4 fs }
  writable m := by simp
  ofFields_fields m := by simp [Function.comp_def]

def serverHello (strict : Bool) : Schema ServerHello where
  fields m := putNat 1 m.protocolVersion.toNat ++ putString 2 m.serverId ++
    putPacked 3 (m.supportedModes.map fun t => enumNat t.code) ++
    putNat 4 m.maxConcurrentTransfers.toNat ++ putNat 5 m.maxFileSize.toNat ++
    putNat 6 m.blockSize.toNat
  ofFields fs := do
    return {
      protocolVersion := ← getU32 strict 1 fs
      serverId := ← getString strict 2 fs
      supportedModes := ← getModes strict 3 fs
      maxConcurrentTransfers := ← getU32 strict 4 fs
      maxFileSize := ← getU64 strict 5 fs
      blockSize := ← getU32 strict 6 fs }
  writable m := by simp
  ofFields_fields m := by simp [Function.comp_def]

def negotiationRequest (strict : Bool) : Schema NegotiationRequest where
  fields m := putString 1 m.relativePath ++ putNat 2 m.clientFileSize.toNat ++
    putNat 3 m.clientLastModifiedNs.toNat ++ putString 4 m.clientSha256Hash
  ofFields fs := do
    return {
      relativePath := ← getString strict 1 fs
      clientFileSize := ← getU64 strict 2 fs
      clientLastModifiedNs := ← getU64 strict 3 fs
      clientSha256Hash := ← getString strict 4 fs }
  writable m := by simp
  ofFields_fields m := by simp

def negotiationResponse (strict : Bool) : Schema NegotiationResponse where
  fields m := putNat 1 (enumNat m.fileMode.code) ++ putNat 2 (enumNat m.transferMode.code) ++
    putNat 3 m.serverFileSize.toNat ++ putString 4 m.serverSha256Hash ++
    putNat 5 m.blockSize.toNat
  ofFields fs := do
    return {
      fileMode := ← (getEnum strict 1 fs).map FileMode.ofCode
      transferMode := ← (getEnum strict 2 fs).map TransferMode.ofCode
      serverFileSize := ← getU64 strict 3 fs
      serverSha256Hash := ← getString strict 4 fs
      blockSize := ← getU32 strict 5 fs }
  writable m := by simp
  ofFields_fields m := by simp

def zeroCopyDownloadRequest (strict : Bool) : Schema ZeroCopyDownloadRequest where
  fields m := putString 1 m.relativePath ++ putNat 2 m.offset.toNat
  ofFields fs := do
    return {
      relativePath := ← getString strict 1 fs
      offset := ← getU64 strict 2 fs }
  writable m := by simp
  ofFields_fields m := by simp

def zeroCopyDownloadHeader (strict : Bool) : Schema ZeroCopyDownloadHeader where
  fields m := putString 1 m.relativePath ++ putNat 2 m.totalSize.toNat ++
    putString 3 m.sha256Hash ++ putNat 4 m.offset.toNat
  ofFields fs := do
    return {
      relativePath := ← getString strict 1 fs
      totalSize := ← getU64 strict 2 fs
      sha256Hash := ← getString strict 3 fs
      offset := ← getU64 strict 4 fs }
  writable m := by simp
  ofFields_fields m := by simp

def zeroCopyUploadRequest (strict : Bool) : Schema ZeroCopyUploadRequest where
  fields m := putMessages 1 [(fileMetadata strict).encode m.metadata]
  ofFields fs := do
    return {
      metadata := ← getOne strict 1 (fileMetadata strict) fs }
  writable m := by simp
  ofFields_fields m := by simp

def zeroCopyUploadAck (strict : Bool) : Schema ZeroCopyUploadAck where
  fields m := putNat 1 (enumNat m.status.code) ++ putString 2 m.errorMessage ++
    putNat 3 m.offset.toNat
  ofFields fs := do
    return {
      status := ← (getEnum strict 1 fs).map StatusCode.ofCode
      errorMessage := ← getString strict 2 fs
      offset := ← getU64 strict 3 fs }
  writable m := by simp
  ofFields_fields m := by simp

def deltaSyncSignatureRequest (strict : Bool) : Schema DeltaSyncSignatureRequest where
  fields m := putString 1 m.relativePath ++ putNat 2 m.fileSize.toNat ++
    putNat 3 m.blockSize.toNat ++ putMessages 4 (m.signatures.map (blockSignature strict).encode)
  ofFields fs := do
    return {
      relativePath := ← getString strict 1 fs
      fileSize := ← getU64 strict 2 fs
      blockSize := ← getU32 strict 3 fs
      signatures := ← getAll strict 4 (blockSignature strict) fs }
  writable m := by simp
  ofFields_fields m := by simp [Function.comp_def]

def deltaSyncBlockRequest (strict : Bool) : Schema DeltaSyncBlockRequest where
  fields m := putString 1 m.relativePath ++
    putPacked 2 (m.requestedBlockIndices.map UInt32.toNat)
  ofFields fs := do
    return {
      relativePath := ← getString strict 1 fs
      requestedBlockIndices := ← (getPacked strict (valuesAt 2 fs)).map (List.map UInt32.ofNat) }
  writable m := by simp
  ofFields_fields m := by simp [Function.comp_def]

def deltaSyncBlockData (strict : Bool) : Schema DeltaSyncBlockData where
  fields m := putString 1 m.relativePath ++ putNat 2 m.blockIndex.toNat ++
    putNat 3 m.blockOffset.toNat ++ putBytes 4 m.data ++ putString 5 m.strongHash
  ofFields fs := do
    return {
      relativePath := ← getString strict 1 fs
      blockIndex := ← getU32 strict 2 fs
      blockOffset := ← getU64 strict 3 fs
      data := ← getBytes strict (valuesAt 4 fs)
      strongHash := ← getString strict 5 fs }
  writable m := by simp
  ofFields_fields m := by simp

def deltaSyncComplete (strict : Bool) : Schema DeltaSyncComplete where
  fields m := putString 1 m.relativePath ++ putNat 2 (enumNat m.status.code) ++
    putString 3 m.errorMessage ++ putString 4 m.finalSha256Hash
  ofFields fs := do
    return {
      relativePath := ← getString strict 1 fs
      status := ← (getEnum strict 2 fs).map StatusCode.ofCode
      errorMessage := ← getString strict 3 fs
      finalSha256Hash := ← getString strict 4 fs }
  writable m := by simp
  ofFields_fields m := by simp

def listFilesRequest (strict : Bool) : Schema ListFilesRequest where
  fields m := putString 1 m.directoryPrefix ++ putNat 2 (if m.recursive then 1 else 0)
  ofFields fs := do
    return {
      directoryPrefix := ← getString strict 1 fs
      recursive := ← getBool strict 2 fs }
  writable m := by simp
  ofFields_fields m := by simp

def listFilesResponse (strict : Bool) : Schema ListFilesResponse where
  fields m := putMessages 1 (m.files.map (fileMetadata strict).encode)
  ofFields fs := do
    return {
      files := ← getAll strict 1 (fileMetadata strict) fs }
  writable m := by simp
  ofFields_fields m := by simp [Function.comp_def]

def errorPayload (strict : Bool) : Schema ErrorPayload where
  fields m := putNat 1 (enumNat m.code.code) ++ putString 2 m.message ++ putString 3 m.detail
  ofFields fs := do
    return {
      code := ← (getEnum strict 1 fs).map StatusCode.ofCode
      message := ← getString strict 2 fs
      detail := ← getString strict 3 fs }
  writable m := by simp
  ofFields_fields m := by simp

def progressUpdate (strict : Bool) : Schema ProgressUpdate where
  fields m := putString 1 m.relativePath ++ putNat 2 m.bytesTransferred.toNat ++
    putNat 3 m.bytesTotal.toNat ++ putFixed32 4 m.rateMbps ++ putNat 5 m.elapsedMs.toNat
  ofFields fs := do
    return {
      relativePath := ← getString strict 1 fs
      bytesTransferred := ← getU64 strict 2 fs
      bytesTotal := ← getU64 strict 3 fs
      rateMbps := ← getFixed32 strict (valuesAt 4 fs)
      elapsedMs := ← getU32 strict 5 fs }
  writable m := by simp
  ofFields_fields m := by simp

end Schemas

/-! ### The runtime -/

/-- A schema as the codec of one direction. -/
def codec {α : Type} (S : Schema α) : Codec α := ⟨S.encode, S.decode, S.decode_encode⟩

/-- The protobuf runtime of the two programs. -/
def protobuf : Proto where
  clientHello := codec (Schemas.clientHello false)
  serverHello := codec (Schemas.serverHello true)
  negotiationRequest := codec (Schemas.negotiationRequest false)
  negotiationResponse := codec (Schemas.negotiationResponse true)
  zeroCopyDownloadRequest := codec (Schemas.zeroCopyDownloadRequest false)
  zeroCopyDownloadHeader := codec (Schemas.zeroCopyDownloadHeader true)
  zeroCopyUploadRequest := codec (Schemas.zeroCopyUploadRequest false)
  zeroCopyUploadAck := codec (Schemas.zeroCopyUploadAck true)
  deltaSyncSignatureRequest := codec (Schemas.deltaSyncSignatureRequest false)
  deltaSyncBlockRequest := codec (Schemas.deltaSyncBlockRequest true)
  deltaSyncBlockData := codec (Schemas.deltaSyncBlockData false)
  deltaSyncComplete := codec (Schemas.deltaSyncComplete true)
  listFilesRequest := codec (Schemas.listFilesRequest false)
  listFilesResponse := codec (Schemas.listFilesResponse true)
  errorPayload := codec (Schemas.errorPayload true)
  progressUpdate := codec (Schemas.progressUpdate true)

/-! ### How long a message is -/

theorem enumNat_lt (code : Int32) : enumNat code < 2 ^ 64 := UInt64.toNat_lt _

theorem length_zeroCopyDownloadHeader_lt {m : ZeroCopyDownloadHeader}
    (hpath : (utf8 m.relativePath).length < 2 ^ 31)
    (hhash : (utf8 m.sha256Hash).length < 2 ^ 31 - 100) :
    (protobuf.zeroCopyDownloadHeader.encode m).length < 2 ^ 32 - 1 := by
  have h₁ : (encodeFields (putBytes 1 (utf8 m.relativePath))).length ≤ 20 + _ :=
    length_putBytes_le (by decide) (by omega)
  have h₂ := @length_putNat_le 2 _ (by decide) m.totalSize.toNat_lt
  have h₃ : (encodeFields (putBytes 3 (utf8 m.sha256Hash))).length ≤ 20 + _ :=
    length_putBytes_le (by decide) (by omega)
  have h₄ := @length_putNat_le 4 _ (by decide) m.offset.toNat_lt
  change (encodeFields ((Schemas.zeroCopyDownloadHeader true).fields m)).length < _
  simp only [Schemas.zeroCopyDownloadHeader, putString, encodeFields_append, List.length_append]
  omega

theorem length_errorPayload_lt {m : ErrorPayload}
    (hmessage : (utf8 m.message).length < 2 ^ 31)
    (hdetail : (utf8 m.detail).length < 2 ^ 31 - 100) :
    (protobuf.errorPayload.encode m).length < 2 ^ 32 - 1 := by
  have h₁ := @length_putNat_le 1 _ (by decide) (enumNat_lt m.code.code)
  have h₂ : (encodeFields (putBytes 2 (utf8 m.message))).length ≤ 20 + _ :=
    length_putBytes_le (by decide) (by omega)
  have h₃ : (encodeFields (putBytes 3 (utf8 m.detail))).length ≤ 20 + _ :=
    length_putBytes_le (by decide) (by omega)
  change (encodeFields ((Schemas.errorPayload true).fields m)).length < _
  simp only [Schemas.errorPayload, putString, encodeFields_append, List.length_append]
  omega

end AdaptiveSync
