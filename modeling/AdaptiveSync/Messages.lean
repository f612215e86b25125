import Mathlib.Data.List.Basic

/-!
# The messages of the protocol

The data of `proto/adaptivesync.proto`: enumerations, messages and the message types
of the wire envelope.

The protobuf runtime is not part of the repository, and neither are the sources
generated from the schema. Each message travels in one direction, so one library
encodes it and one decodes it; a `Codec` is such a pair, and what the program relies on
is its law, that a message that was encoded decodes to itself. What a decoder makes of
any other bytes is left open. `Proto` collects the codecs; `Protobuf` has them in the
proto3 wire format.

Enumerations are open, as in proto3: a number outside the schema is kept as
`unrecognized`. The one floating-point field, `ProgressUpdate.rateMbps`, is carried as
its bit pattern and never computed with.
-/

namespace AdaptiveSync

/-- A byte string. -/
abbrev Bytes := List UInt8

/-! ### Enumerations -/

/-- A number that names none of the first `n` values of an enumeration. -/
def Unknown (n : Int32) (code : Int32) : Prop := code < 0 ∨ n ≤ code

instance (n code : Int32) : Decidable (Unknown n code) := inferInstanceAs (Decidable (_ ∨ _))

inductive TransferMode where
  | unspecified | zeroCopy | deltaSync
  | unrecognized (code : Int32) (h : Unknown 3 code)
  deriving DecidableEq

inductive FileMode where
  | unspecified | fresh | modified | unchanged
  | unrecognized (code : Int32) (h : Unknown 4 code)
  deriving DecidableEq

inductive StatusCode where
  | unspecified | ok | error | fileNotFound | permissionDenied | checksumMismatch
  | protocolError | busy
  | unrecognized (code : Int32) (h : Unknown 8 code)
  deriving DecidableEq

/-- The message types of the wire envelope. -/
inductive MessageType where
  | clientHello | serverHello
  | negotiationRequest | negotiationResponse
  | zeroCopyDownloadRequest | zeroCopyDownloadHeader
  | zeroCopyUploadRequest | zeroCopyUploadAck
  | deltaSyncSignatureRequest | deltaSyncBlockRequest | deltaSyncBlockData | deltaSyncComplete
  | listFilesRequest | listFilesResponse
  | error | progress
  deriving DecidableEq

/-- The byte a message type is sent as. -/
def MessageType.code : MessageType → UInt8
  | .clientHello => 1
  | .serverHello => 2
  | .negotiationRequest => 10
  | .negotiationResponse => 11
  | .zeroCopyDownloadRequest => 20
  | .zeroCopyDownloadHeader => 21
  | .zeroCopyUploadRequest => 22
  | .zeroCopyUploadAck => 23
  | .deltaSyncSignatureRequest => 30
  | .deltaSyncBlockRequest => 31
  | .deltaSyncBlockData => 32
  | .deltaSyncComplete => 33
  | .listFilesRequest => 40
  | .listFilesResponse => 41
  | .error => 50
  | .progress => 51

/-! ### Handshake and negotiation -/

structure ClientHello where
  protocolVersion : UInt32
  clientId : String
  supportedModes : List TransferMode
  blockSize : UInt32
  deriving DecidableEq

structure ServerHello where
  protocolVersion : UInt32
  serverId : String
  supportedModes : List TransferMode
  maxConcurrentTransfers : UInt32
  maxFileSize : UInt64
  blockSize : UInt32
  deriving DecidableEq

structure FileMetadata where
  relativePath : String
  fileSize : UInt64
  lastModifiedNs : UInt64
  sha256Hash : String
  fileMode : FileMode
  deriving DecidableEq

structure NegotiationRequest where
  relativePath : String
  clientFileSize : UInt64
  clientLastModifiedNs : UInt64
  clientSha256Hash : String
  deriving DecidableEq

structure NegotiationResponse where
  fileMode : FileMode
  transferMode : TransferMode
  serverFileSize : UInt64
  serverSha256Hash : String
  blockSize : UInt32
  deriving DecidableEq

/-! ### Zero-copy transfer -/

structure ZeroCopyDownloadRequest where
  relativePath : String
  offset : UInt64
  deriving DecidableEq

structure ZeroCopyDownloadHeader where
  relativePath : String
  totalSize : UInt64
  sha256Hash : String
  offset : UInt64
  deriving DecidableEq

structure ZeroCopyUploadRequest where
  metadata : FileMetadata
  deriving DecidableEq

structure ZeroCopyUploadAck where
  status : StatusCode
  errorMessage : String
  offset : UInt64
  deriving DecidableEq

/-! ### Delta sync -/

structure BlockSignature where
  blockIndex : UInt32
  rollingHash : UInt32
  strongHash : String
  blockOffset : UInt64
  blockSize : UInt32
  deriving DecidableEq

structure DeltaSyncSignatureRequest where
  relativePath : String
  fileSize : UInt64
  blockSize : UInt32
  signatures : List BlockSignature
  deriving DecidableEq

structure DeltaSyncBlockRequest where
  relativePath : String
  requestedBlockIndices : List UInt32
  deriving DecidableEq

structure DeltaSyncBlockData where
  relativePath : String
  blockIndex : UInt32
  blockOffset : UInt64
  data : Bytes
  strongHash : String
  deriving DecidableEq

structure DeltaSyncComplete where
  relativePath : String
  status : StatusCode
  errorMessage : String
  finalSha256Hash : String
  deriving DecidableEq

/-! ### Listing and general purpose -/

structure ListFilesRequest where
  directoryPrefix : String
  recursive : Bool
  deriving DecidableEq

structure ListFilesResponse where
  files : List FileMetadata
  deriving DecidableEq

structure ErrorPayload where
  code : StatusCode
  message : String
  detail : String
  deriving DecidableEq

structure ProgressUpdate where
  relativePath : String
  bytesTransferred : UInt64
  bytesTotal : UInt64
  rateMbps : UInt32
  elapsedMs : UInt32
  deriving DecidableEq

/-! ### Codecs -/

/-- The encoder of one side and the decoder of the other. -/
structure Codec (α : Type) where
  encode : α → Bytes
  decode : Bytes → Option α
  /-- What was encoded decodes to itself. -/
  decode_encode : ∀ m, decode (encode m) = some m

/-- The protobuf runtime, as far as the program uses it. -/
structure Proto where
  clientHello : Codec ClientHello
  serverHello : Codec ServerHello
  negotiationRequest : Codec NegotiationRequest
  negotiationResponse : Codec NegotiationResponse
  zeroCopyDownloadRequest : Codec ZeroCopyDownloadRequest
  zeroCopyDownloadHeader : Codec ZeroCopyDownloadHeader
  zeroCopyUploadRequest : Codec ZeroCopyUploadRequest
  zeroCopyUploadAck : Codec ZeroCopyUploadAck
  deltaSyncSignatureRequest : Codec DeltaSyncSignatureRequest
  deltaSyncBlockRequest : Codec DeltaSyncBlockRequest
  deltaSyncBlockData : Codec DeltaSyncBlockData
  deltaSyncComplete : Codec DeltaSyncComplete
  listFilesRequest : Codec ListFilesRequest
  listFilesResponse : Codec ListFilesResponse
  errorPayload : Codec ErrorPayload
  progressUpdate : Codec ProgressUpdate

attribute [simp] Codec.decode_encode

/-! ### Client errors -/

/-- `ClientError`. -/
inductive ClientError where
  | connection (message : String)
  | protocol (message : String)
  | fileIo (message : String)
  | hashMismatch (expected actual : String)
  | serverError (code : StatusCode) (message : String)
  /-- A panic of the client thread. -/
  | panic (message : String)
  deriving DecidableEq

end AdaptiveSync
