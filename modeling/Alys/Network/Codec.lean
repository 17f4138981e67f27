import Alys.Lib.Ssz
import Alys.Network.Handler

/-!
# The messages of the RPC protocol as bytes

Model of `app/src/network/rpc/codec`: `base.rs` and `ssz_snappy.rs`, with the messages of
`methods.rs` and the limits of `protocol.rs`. A chunk is the length of the payload, as a number of
variable length, and the compressed payload; a response has its code in front. The decoders are
called on what has arrived so far and wait for the rest.

The numbers of variable length, the frame format of snappy, SSZ and the MessagePack form of a block
are those of outside libraries (`Libraries`); `Libraries.Lawful` is what is assumed of them.
-/

namespace Alys.Rpc.Wire
open Lib

/-! ## Messages -/

/-- Bytes of a fixed number, such as a hash. -/
structure FixedBytes (n : Nat) where
  bytes : Bytes
  length_eq : bytes.length = n
  deriving DecidableEq

/-- All valid protocol name and version combinations. -/
inductive SupportedProtocol where
  | statusV1
  | goodbyeV1
  | blocksByRange
  | pingV1
  | metaDataV1
  deriving DecidableEq

structure StatusMessage where
  finalizedHash : FixedBytes 32
  headHash : FixedBytes 32
  deriving DecidableEq

structure MetaData where
  seqNumber : UInt64
  /-- 64 bits -/
  attnets : FixedBytes 8
  /-- four bits in one byte, the others of which are zero -/
  syncnets : Fin 16
  deriving DecidableEq

inductive GoodbyeReason where
  | clientShutdown
  | irrelevantNetwork
  | fault
  | unableToVerifyNetwork
  | tooManyPeers
  | badScore
  | banned
  | bannedIP
  | unknown
  deriving DecidableEq

/-- `From<GoodbyeReason> for u64`. -/
def GoodbyeReason.toU64 : GoodbyeReason → UInt64
  | .clientShutdown => 1
  | .irrelevantNetwork => 2
  | .fault => 3
  | .unableToVerifyNetwork => 128
  | .tooManyPeers => 129
  | .badScore => 250
  | .banned => 251
  | .bannedIP => 252
  | .unknown => 0

/-- `From<u64> for GoodbyeReason`: an unknown number becomes `Unknown`. -/
def GoodbyeReason.fromU64 (id : UInt64) : GoodbyeReason :=
  if id = 1 then .clientShutdown
  else if id = 2 then .irrelevantNetwork
  else if id = 3 then .fault
  else if id = 128 then .unableToVerifyNetwork
  else if id = 129 then .tooManyPeers
  else if id = 250 then .badScore
  else if id = 251 then .banned
  else if id = 252 then .bannedIP
  else .unknown

structure BlocksByRangeRequest where
  startHeight : UInt64
  count : UInt64
  deriving DecidableEq

structure Ping where
  data : UInt64
  deriving DecidableEq

/-- `InboundRequest` and `OutboundRequest`, with what they carry. -/
inductive Request where
  | status (message : StatusMessage)
  | goodbye (reason : GoodbyeReason)
  | blocksByRange (request : BlocksByRangeRequest)
  | ping (ping : Ping)
  | metaData
  deriving DecidableEq

/-- `versioned_protocol` of a request. -/
def Request.versionedProtocol : Request → SupportedProtocol
  | .status _ => .statusV1
  | .goodbye _ => .goodbyeV1
  | .blocksByRange _ => .blocksByRange
  | .ping _ => .pingV1
  | .metaData => .metaDataV1

/-- An error message of at most `MAX_ERROR_LEN` bytes. -/
structure ErrorType where
  bytes : Bytes
  length_le : bytes.length ≤ 256
  deriving DecidableEq

/-- `RPCResponse`, for blocks in `B`. -/
inductive RPCResponse (B : Type) where
  | status (message : StatusMessage)
  | blocksByRange (block : B)
  | pong (ping : Ping)
  | metaData (metadata : MetaData)
  deriving DecidableEq

/-- The protocol that a response belongs to. -/
def RPCResponse.versionedProtocol {B : Type} : RPCResponse B → SupportedProtocol
  | .status _ => .statusV1
  | .blocksByRange _ => .blocksByRange
  | .pong _ => .pingV1
  | .metaData _ => .metaDataV1

/-- `RPCCodedResponse`, with the error message as bytes. -/
inductive RPCCodedResponse (B : Type) where
  | success (response : RPCResponse B)
  | error (code : RPCResponseErrorCode) (err : ErrorType)
  | streamTermination (termination : ResponseTermination)
  deriving DecidableEq

/-- `RPCResponseErrorCode::as_u8`. -/
def errorCode : RPCResponseErrorCode → UInt8
  | .invalidRequest => 1
  | .serverError => 2
  | .resourceUnavailable => 3
  | .unknown => 255
  | .rateLimited => 139

namespace RPCCodedResponse

variable {B : Type}

def asU8 : RPCCodedResponse B → Option UInt8
  | .success _ => some 0
  | .error code _ => some (errorCode code)
  | .streamTermination _ => none

def isResponse (responseCode : UInt8) : Bool := responseCode = 0

def fromError (responseCode : UInt8) (err : ErrorType) : RPCCodedResponse B :=
  if responseCode = 1 then .error .invalidRequest err
  else if responseCode = 2 then .error .serverError err
  else if responseCode = 3 then .error .resourceUnavailable err
  else if responseCode = 139 then .error .rateLimited err
  else .error .unknown err

end RPCCodedResponse

/-! ## Outside libraries -/

/-- What `read_exact` on a snappy reader gives, with the number of compressed bytes it read. -/
inductive ReadExact where
  | filled (data : Bytes) (position : Nat)
  | unexpectedEof (position : Nat)
  | failed (e : Text) (position : Nat)

/-- The functions of outside libraries that the codecs call. -/
structure Libraries (B : Type) where
  /-- `Uvi::encode` -/
  uviEncode : Nat → Bytes
  /-- `Uvi::decode`: the number with the bytes after it, none if there are too few bytes -/
  uviDecode : Bytes → Except Text (Option (Nat × Bytes))
  /-- `snap::raw::max_compress_len` -/
  maxCompressLen : Nat → Nat
  /-- `snap::write::FrameEncoder` -/
  compress : Bytes → Bytes
  /-- `snap::read::FrameDecoder` -/
  readExact : Nat → Bytes → ReadExact
  u64 : Ssz UInt64
  statusMessage : Ssz StatusMessage
  blocksByRangeRequest : Ssz BlocksByRangeRequest
  ping : Ssz Ping
  metaData : Ssz MetaData
  /-- of a `VariableList`, which has no fixed length -/
  errorAsSszBytes : ErrorType → Bytes
  errorFromSszBytes : Bytes → Option ErrorType
  /-- `rmp_serde::to_vec` -/
  blockToVec : B → Bytes
  /-- `rmp_serde::from_slice` -/
  blockFromSlice : Bytes → Option B

section Ssz

variable {B : Type} (L : Libraries B)

def GoodbyeReason.asSszBytes (reason : GoodbyeReason) : Bytes := L.u64.asSszBytes reason.toU64

def GoodbyeReason.fromSszBytes (bytes : Bytes) : Option GoodbyeReason :=
  (L.u64.fromSszBytes bytes).map .fromU64

end Ssz

/-! ## Limits -/

structure RpcLimits where
  min : Nat
  max : Nat

def RpcLimits.isOutOfBounds (limits : RpcLimits) (length maxRpcSize : Nat) : Bool :=
  Nat.min limits.max maxRpcSize < length || length < limits.min

section Limits

variable {B : Type} (L : Libraries B)

/-- `ProtocolId::rpc_request_limits`. The length of a `GoodbyeReason` is that of a `u64`. -/
def rpcRequestLimits : SupportedProtocol → RpcLimits
  | .statusV1 => ⟨L.statusMessage.sszFixedLen, L.statusMessage.sszFixedLen⟩
  | .goodbyeV1 => ⟨L.u64.sszFixedLen, L.u64.sszFixedLen⟩
  | .blocksByRange => ⟨L.blocksByRangeRequest.sszFixedLen, L.blocksByRangeRequest.sszFixedLen⟩
  | .pingV1 => ⟨L.ping.sszFixedLen, L.ping.sszFixedLen⟩
  | .metaDataV1 => ⟨0, 0⟩

/-- `ProtocolId::rpc_response_limits`. -/
def rpcResponseLimits : SupportedProtocol → RpcLimits
  | .statusV1 => ⟨L.statusMessage.sszFixedLen, L.statusMessage.sszFixedLen⟩
  | .goodbyeV1 => ⟨0, 0⟩
  | .blocksByRange => ⟨1, 1024 * 1024⟩
  | .pingV1 => ⟨L.ping.sszFixedLen, L.ping.sszFixedLen⟩
  | .metaDataV1 => ⟨L.metaData.sszFixedLen, L.metaData.sszFixedLen⟩

/-- `ERROR_TYPE_MIN`. -/
def errorTypeMin : Nat := (L.errorAsSszBytes ⟨[], Nat.zero_le _⟩).length

/-- `ERROR_TYPE_MAX`. -/
def errorTypeMax : Nat :=
  (L.errorAsSszBytes ⟨List.replicate 256 0, List.length_replicate.le⟩).length

end Limits

/-! ## Chunks -/

section Decoders

variable {B α : Type} (L : Libraries B)

/-- The length of the payload; it is read once for a chunk. -/
def handleLength (len : Option Nat) (src : Bytes) :
    Except RPCError (Option Nat) × Option Nat × Bytes :=
  match len with
  | some length => (.ok (some length), len, src)
  | none =>
    match L.uviDecode src with
    | .ok (some (length, rest)) => (.ok (some length), some length, rest)
    | .ok none => (.ok none, none, src)
    | .error e => (.error (.ioError e), none, src)

/-- The end of the bytes is waited out unless as many were read as the payload can take. -/
def handleError (numBytes maxCompressedLen : Nat) : Except RPCError (Option α) :=
  if maxCompressedLen ≤ numBytes then
    .error (.invalidData ("Received malicious snappy message, num_bytes ".toList ++
      Nat.toDigits 10 numBytes ++ ", max_compressed_len ".toList ++
      Nat.toDigits 10 maxCompressedLen))
  else .ok none

/-- The body of the decoders: `outOfBounds` is the error for a length that is not allowed, `handle`
reads the payload. -/
def decodeChunk (outOfBounds : Nat → Option RPCError)
    (handle : Bytes → Except RPCError (Option α)) (len : Option Nat) (src : Bytes) :
    Except RPCError (Option α) × Option Nat × Bytes :=
  match handleLength L len src with
  | (.error e, len, src) => (.error e, len, src)
  | (.ok none, len, src) => (.ok none, len, src)
  | (.ok (some length), len, src) =>
    match outOfBounds length with
    | some e => (.error e, len, src)
    | none =>
      match L.readExact length (src.take (L.maxCompressLen length)) with
      | .filled data position => (handle data, none, src.drop position)
      | .unexpectedEof position => (handleError position (L.maxCompressLen length), len, src)
      | .failed e _ => (.error (.ioError e), len, src)

/-- An SSZ value, or the error of its decoder. -/
def ofSsz (value : Option α) : Except RPCError (Option α) :=
  match value with
  | some a => .ok (some a)
  | none => .error .sszDecodeError

def handleRpcRequest (protocol : SupportedProtocol) (data : Bytes) :
    Except RPCError (Option Request) :=
  match protocol with
  | .statusV1 => ofSsz ((L.statusMessage.fromSszBytes data).map .status)
  | .goodbyeV1 => ofSsz ((GoodbyeReason.fromSszBytes L data).map .goodbye)
  | .blocksByRange => ofSsz ((L.blocksByRangeRequest.fromSszBytes data).map .blocksByRange)
  | .pingV1 => ofSsz ((L.u64.fromSszBytes data).map fun data => .ping ⟨data⟩)
  | .metaDataV1 =>
    if data ≠ [] then .error (.internalError "Metadata requests shouldn't reach decoder".toList)
    else .ok (some .metaData)

def handleRpcResponse (protocol : SupportedProtocol) (data : Bytes) :
    Except RPCError (Option (RPCResponse B)) :=
  match protocol with
  | .statusV1 => ofSsz ((L.statusMessage.fromSszBytes data).map .status)
  | .goodbyeV1 => .error (.invalidData "Goodbye RPC message has no valid response".toList)
  | .pingV1 => ofSsz ((L.u64.fromSszBytes data).map fun data => .pong ⟨data⟩)
  | .metaDataV1 => ofSsz ((L.metaData.fromSszBytes data).map .metaData)
  | .blocksByRange =>
    match L.blockFromSlice data with
    | some block => .ok (some (.blocksByRange block))
    | none => .error .codecError

/-- The name of a protocol in messages. -/
def SupportedProtocol.debug : SupportedProtocol → Text
  | .statusV1 => "StatusV1".toList
  | .goodbyeV1 => "GoodbyeV1".toList
  | .blocksByRange => "BlocksByRange".toList
  | .pingV1 => "PingV1".toList
  | .metaDataV1 => "MetaDataV1".toList

def requestOutOfBounds (protocol : SupportedProtocol) (maxPacketSize length : Nat) :
    Option RPCError :=
  if (rpcRequestLimits L protocol).isOutOfBounds length maxPacketSize then
    some (.invalidData ("RPC request length for protocol ".toList ++ protocol.debug ++
      " is out of bounds, length ".toList ++ Nat.toDigits 10 length))
  else none

def responseOutOfBounds (protocol : SupportedProtocol) (maxPacketSize length : Nat) :
    Option RPCError :=
  if (rpcResponseLimits L protocol).isOutOfBounds length maxPacketSize then
    some (.invalidData ("RPC response length is out of bounds, length ".toList ++
      Nat.toDigits 10 length))
  else none

def errorOutOfBounds (maxPacketSize length : Nat) : Option RPCError :=
  if maxPacketSize < length ∨ errorTypeMax L < length ∨ length < errorTypeMin L then
    some (.invalidData ("RPC Error length is out of bounds, length ".toList ++
      Nat.toDigits 10 length))
  else none

/-- `SSZSnappyInboundCodec::decode`, of a request. -/
def SSZSnappyInboundCodec.decode (protocol : SupportedProtocol) (maxPacketSize : Nat)
    (len : Option Nat) (src : Bytes) : Except RPCError (Option Request) × Option Nat × Bytes :=
  if protocol = .metaDataV1 then (.ok (some .metaData), len, src)
  else
    decodeChunk L (requestOutOfBounds L protocol maxPacketSize) (handleRpcRequest L protocol)
      len src

/-- `SSZSnappyOutboundCodec::decode`, of a response. -/
def SSZSnappyOutboundCodec.decode (protocol : SupportedProtocol) (maxPacketSize : Nat)
    (len : Option Nat) (src : Bytes) :
    Except RPCError (Option (RPCResponse B)) × Option Nat × Bytes :=
  decodeChunk L (responseOutOfBounds L protocol maxPacketSize) (handleRpcResponse L protocol)
    len src

/-- `SSZSnappyOutboundCodec::decode_error`. -/
def SSZSnappyOutboundCodec.decodeError (maxPacketSize : Nat) (len : Option Nat) (src : Bytes) :
    Except RPCError (Option ErrorType) × Option Nat × Bytes :=
  decodeChunk L (errorOutOfBounds L maxPacketSize) (fun data => ofSsz (L.errorFromSszBytes data))
    len src

structure BaseOutboundCodec where
  currentResponseCode : Option UInt8
  /-- the length in the inner codec -/
  len : Option Nat
  deriving DecidableEq

def BaseOutboundCodec.new : BaseOutboundCodec := ⟨none, none⟩

/-- The chunk of a response with the given code: a response or an error. -/
def BaseOutboundCodec.decodeInner (protocol : SupportedProtocol) (maxPacketSize : Nat)
    (responseCode : UInt8) (len : Option Nat) (src : Bytes) :
    Except RPCError (Option (RPCCodedResponse B)) × Option Nat × Bytes :=
  if RPCCodedResponse.isResponse responseCode then
    let r := SSZSnappyOutboundCodec.decode L protocol maxPacketSize len src
    (r.1.map fun response => response.map .success, r.2)
  else
    let r := SSZSnappyOutboundCodec.decodeError L maxPacketSize len src
    (r.1.map fun err => err.map (.fromError responseCode), r.2)

/-- The code is reset once the chunk was decoded. -/
def BaseOutboundCodec.decodeCoded (protocol : SupportedProtocol) (maxPacketSize : Nat)
    (responseCode : UInt8) (len : Option Nat) (src : Bytes) :
    Except RPCError (Option (RPCCodedResponse B)) × BaseOutboundCodec × Bytes :=
  match decodeInner L protocol maxPacketSize responseCode len src with
  | (.ok (some m), len, src) => (.ok (some m), ⟨none, len⟩, src)
  | (.ok none, len, src) => (.ok none, ⟨some responseCode, len⟩, src)
  | (.error e, len, src) => (.error e, ⟨some responseCode, len⟩, src)

/-- `BaseOutboundCodec::decode`. With one byte or none it waits, also in the middle of a chunk. -/
def BaseOutboundCodec.decode (protocol : SupportedProtocol) (maxPacketSize : Nat)
    (codec : BaseOutboundCodec) (src : Bytes) :
    Except RPCError (Option (RPCCodedResponse B)) × BaseOutboundCodec × Bytes :=
  match src with
  | [] => (.ok none, codec, src)
  | [_] => (.ok none, codec, src)
  | first :: second :: rest =>
    match codec.currentResponseCode with
    | some responseCode =>
      BaseOutboundCodec.decodeCoded L protocol maxPacketSize responseCode codec.len src
    | none =>
      BaseOutboundCodec.decodeCoded L protocol maxPacketSize first codec.len (second :: rest)

end Decoders

section Encoders

variable {B : Type} (L : Libraries B)

/-- The end of the encoders: the length and the compressed payload are added to the buffer. -/
def encodeChunk (maxPacketSize : Nat) (bytes dst : Bytes) : Except (Fault RPCError) Bytes :=
  if maxPacketSize < bytes.length then
    .error (.error (.internalError "attempting to encode data > max_packet_size".toList))
  else .ok (dst ++ L.uviEncode bytes.length ++ L.compress bytes)

/-- The payload of a request, none for metadata. -/
def Request.asSszBytes : Request → Option Bytes
  | .status message => some (L.statusMessage.asSszBytes message)
  | .goodbye reason => some (reason.asSszBytes L)
  | .blocksByRange request => some (L.blocksByRangeRequest.asSszBytes request)
  | .ping request => some (L.ping.asSszBytes request)
  | .metaData => none

/-- `SSZSnappyOutboundCodec::encode`, of a request. -/
def SSZSnappyOutboundCodec.encode (maxPacketSize : Nat) (item : Request) (dst : Bytes) :
    Except (Fault RPCError) Bytes :=
  match item.asSszBytes L with
  | none => .ok dst
  | some bytes => encodeChunk L maxPacketSize bytes dst

/-- The payload of a response. -/
def RPCResponse.asSszBytes : RPCResponse B → Bytes
  | .status message => L.statusMessage.asSszBytes message
  | .blocksByRange block => L.blockToVec block
  | .pong ping => L.u64.asSszBytes ping.data
  | .metaData metadata => L.metaData.asSszBytes metadata

/-- The payload of a coded response; a termination has none. -/
def RPCCodedResponse.asSszBytes : RPCCodedResponse B → Option Bytes
  | .success response => some (response.asSszBytes L)
  | .error _ err => some (L.errorAsSszBytes err)
  | .streamTermination _ => none

/-- `SSZSnappyInboundCodec::encode`, of a response. A termination is `unreachable!`. -/
def SSZSnappyInboundCodec.encode (maxPacketSize : Nat) (item : RPCCodedResponse B) (dst : Bytes) :
    Except (Fault RPCError) Bytes :=
  match item.asSszBytes L with
  | none => .error .panic
  | some bytes => encodeChunk L maxPacketSize bytes dst

/-- `BaseInboundCodec::encode`. What the buffer held before is dropped. -/
def BaseInboundCodec.encode (maxPacketSize : Nat) (item : RPCCodedResponse B) (_dst : Bytes) :
    Except (Fault RPCError) Bytes :=
  match item.asU8 with
  | none => .error .panic
  | some code => SSZSnappyInboundCodec.encode L maxPacketSize item [code]

end Encoders

/-! ## Codes are read back -/

/-- Every reason is that of its number. -/
lemma GoodbyeReason.fromU64_toU64 (reason : GoodbyeReason) : fromU64 reason.toU64 = reason := by
  cases reason <;> rfl

/-- Every error code is that of its number. -/
lemma RPCCodedResponse.fromError_errorCode {B : Type} (code : RPCResponseErrorCode)
    (err : ErrorType) : fromError (B := B) (errorCode code) err = .error code err := by
  cases code <;> rfl

/-- No error has the code of a response. -/
lemma isResponse_errorCode (code : RPCResponseErrorCode) :
    RPCCodedResponse.isResponse (errorCode code) = false := by
  cases code <;> rfl

end Alys.Rpc.Wire
