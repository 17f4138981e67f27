import Alys.Lib.Pipe
import Alys.Lib.Snappy
import Alys.Lib.Varint
import Alys.Network.Codec

/-!
# Requests and responses over a substream

What arrives of the messages that are written to a substream, with the codecs of
`app/src/network/rpc/codec` at both ends: the bytes are cut wherever the transport cuts them, and
the decoder is called at any time. Besides, what the decoders keep in memory whatever the peer
sends.

The writer is a `Framed` of tokio-util, which lets the codec append to a buffer and writes the
buffer out later. `BaseInboundCodec::encode` clears the buffer, so a response has to leave it before
the next one is encoded; the handler flushes the substream after each response.
-/

namespace Alys.Rpc.Wire
open Lib

/-! ## Assumptions -/

/-- What is assumed of the outside libraries. -/
structure Libraries.Lawful {B : Type} (L : Libraries B) : Prop where
  /-- a number is read back with the bytes after it untouched -/
  uviDecode_encode : ∀ {n} rest, n < 2 ^ 64 →
    L.uviDecode (L.uviEncode n ++ rest) = .ok (some (n, rest))
  /-- and waited for while bytes are missing -/
  uviDecode_cut : ∀ {n cut}, n < 2 ^ 64 → cut <+: L.uviEncode n → cut ≠ L.uviEncode n →
    L.uviDecode cut = .ok none
  uviEncode_ne_nil : ∀ n, L.uviEncode n ≠ []
  length_uviEncode_zero : (L.uviEncode 0).length = 1
  /-- what was compressed is read back with the bytes after it untouched -/
  readExact_compress : ∀ data rest,
    L.readExact data.length (L.compress data ++ rest) = .filled data (L.compress data).length
  /-- the end is waited for while bytes are missing -/
  readExact_cut : ∀ data cut more, more ≠ [] → cut ++ more = L.compress data →
    L.readExact data.length cut = .unexpectedEof cut.length
  compress_nil : L.compress [] = []
  two_le_compress : ∀ data, data ≠ [] → 2 ≤ (L.compress data).length
  /-- the compressed form keeps to its bound -/
  compress_le : ∀ data, data.length ≤ 2 ^ 20 →
    (L.compress data).length ≤ L.maxCompressLen data.length
  u64 : L.u64.Lawful
  statusMessage : L.statusMessage.Lawful
  blocksByRangeRequest : L.blocksByRangeRequest.Lawful
  metaData : L.metaData.Lawful
  /-- a `Ping` is written as its data -/
  ping_asSszBytes : ∀ ping, L.ping.asSszBytes ping = L.u64.asSszBytes ping.data
  ping_sszFixedLen : L.ping.sszFixedLen = L.u64.sszFixedLen
  requests_small : ∀ protocol, (rpcRequestLimits L protocol).max ≤ 2 ^ 20
  length_errorAsSszBytes : ∀ err, (L.errorAsSszBytes err).length = err.bytes.length
  errorFromSszBytes_asSszBytes : ∀ err, L.errorFromSszBytes (L.errorAsSszBytes err) = some err
  blockFromSlice_toVec : ∀ block, L.blockFromSlice (L.blockToVec block) = some block
  blockToVec_ne_nil : ∀ block, L.blockToVec block ≠ []

/-! ### The formats -/

def FixedBytes.ssz (n : Nat) : Ssz (FixedBytes n) :=
  (Ssz.bytes n).refine (fun bytes => if h : bytes.length = n then some ⟨bytes, h⟩ else none)
    FixedBytes.bytes

lemma FixedBytes.ssz_lawful (n : Nat) : (ssz n).Lawful := fun b =>
  (Ssz.bytes_keeps b.length_eq).refine (dif_pos b.length_eq)

def StatusMessage.ssz : Ssz StatusMessage :=
  ((FixedBytes.ssz 32).pair (FixedBytes.ssz 32)).refine (fun x => some ⟨x.1, x.2⟩)
    fun message => (message.finalizedHash, message.headHash)

lemma StatusMessage.ssz_lawful : ssz.Lawful := fun message =>
  Ssz.Keeps.refine (.pair (FixedBytes.ssz_lawful 32 message.finalizedHash)
    (FixedBytes.ssz_lawful 32 message.headHash)) rfl

def BlocksByRangeRequest.ssz : Ssz BlocksByRangeRequest :=
  (Ssz.u64.pair .u64).refine (fun x => some ⟨x.1, x.2⟩)
    fun request => (request.startHeight, request.count)

lemma BlocksByRangeRequest.ssz_lawful : ssz.Lawful := fun request =>
  Ssz.Keeps.refine (.pair (Ssz.u64_lawful request.startHeight) (Ssz.u64_lawful request.count)) rfl

def MetaData.ssz : Ssz MetaData :=
  ((Ssz.u64.pair (FixedBytes.ssz 8)).pair (.number 1)).refine
    (fun x => if h : x.2 < 16 then some ⟨x.1.1, x.1.2, x.2, h⟩ else none)
    fun metadata => ((metadata.seqNumber, metadata.attnets), metadata.syncnets)

lemma MetaData.ssz_lawful : ssz.Lawful := fun metadata => by
  have hsync : (metadata.syncnets : Nat) < 256 ^ 1 := by omega
  exact Ssz.Keeps.refine (.pair (.pair (Ssz.u64_lawful metadata.seqNumber)
    (FixedBytes.ssz_lawful 8 metadata.attnets)) (Ssz.number_keeps hsync))
    (dif_pos metadata.syncnets.isLt)

/-- The formats, with numbers of one byte in the place of blocks. The texts of the errors of a
snappy reader are left out. -/
def Libraries.standard : Libraries UInt8 where
  uviEncode := Varint.encode
  uviDecode bytes :=
    match Varint.decode bytes with
    | .ok x => .ok (some x)
    | .error .insufficient => .ok none
    | .error .overflow => .error "input bytes exceed maximum".toList
    | .error .notMinimal => .error "encoding is not minimal".toList
  maxCompressLen := Snappy.maxCompressLen
  compress := Snappy.compress
  readExact n bytes :=
    match Snappy.readExact n bytes with
    | .filled data rest => .filled data (bytes.length - rest.length)
    | .unexpectedEof => .unexpectedEof bytes.length
    | .failed => .failed [] bytes.length
  u64 := .u64
  statusMessage := StatusMessage.ssz
  blocksByRangeRequest := BlocksByRangeRequest.ssz
  ping := Ssz.u64.refine (fun data => some ⟨data⟩) Ping.data
  metaData := MetaData.ssz
  errorAsSszBytes := ErrorType.bytes
  errorFromSszBytes bytes := if h : bytes.length ≤ 256 then some ⟨bytes, h⟩ else none
  blockToVec block := if block < 128 then [block] else [0xcc, block]
  blockFromSlice bytes := bytes.getLast?

/-- The formats satisfy the assumptions. -/
lemma Libraries.standard_lawful : Libraries.standard.Lawful where
  uviDecode_encode rest h := by
    simp only [standard, Varint.decode_encode h]
  uviDecode_cut h hcut hne := by
    simp only [standard, Varint.decode_cut h hcut hne]
  uviEncode_ne_nil := Varint.encode_ne_nil
  length_uviEncode_zero := rfl
  readExact_compress data rest := by
    simp only [standard, Snappy.readExact_compress, List.length_append, Nat.add_sub_cancel]
  readExact_cut data cut more hmore e := by
    simp only [standard, Snappy.readExact_cut hmore e]
  compress_nil := rfl
  two_le_compress _ := Snappy.two_le_length_compress
  compress_le data h :=
    (Snappy.length_compress_le data).trans (Snappy.maxCompressLen_eq h).ge
  u64 := Ssz.u64_lawful
  statusMessage := StatusMessage.ssz_lawful
  blocksByRangeRequest := BlocksByRangeRequest.ssz_lawful
  metaData := MetaData.ssz_lawful
  ping_asSszBytes _ := rfl
  ping_sszFixedLen := rfl
  requests_small protocol := by cases protocol <;> decide
  length_errorAsSszBytes _ := rfl
  errorFromSszBytes_asSszBytes err := dif_pos err.length_le
  blockFromSlice_toVec block := by
    simp only [standard]
    split <;> rfl
  blockToVec_ne_nil block := by
    simp only [standard]
    split <;> exact List.cons_ne_nil _ _

/-! ## One chunk -/

section Chunk

variable {B α : Type} {L : Libraries B} {outOfBounds : Nat → Option RPCError}
  {handle : Bytes → Except RPCError (Option α)} {data : Bytes}

/-- The part of a chunk that was taken out of the buffer: nothing, or the length. -/
def MidChunk (L : Libraries B) (data : Bytes) (len : Option Nat) (c : Bytes) : Prop :=
  len = none ∧ c = [] ∨ len = some data.length ∧ c = L.uviEncode data.length

/-- The bytes of a chunk. -/
def chunk (L : Libraries B) (data : Bytes) : Bytes :=
  L.uviEncode data.length ++ L.compress data

/-- The length is read when it is complete. -/
lemma handleLength_complete (hL : L.Lawful) (hsize : data.length ≤ 2 ^ 20) {len : Option Nat}
    {c b z : Bytes} (h : MidChunk L data len c) (e : c ++ b = L.uviEncode data.length ++ z) :
    handleLength L len b = (.ok (some data.length), some data.length, z) := by
  rcases h with ⟨rfl, rfl⟩ | ⟨rfl, rfl⟩
  · rw [List.nil_append] at e
    simp only [handleLength, e, hL.uviDecode_encode z (show data.length < 2 ^ 64 by omega)]
  · rw [handleLength, List.append_cancel_left e]

/-- Without any bytes the decoder waits for the length. -/
lemma decodeChunk_nil (hL : L.Lawful) :
    decodeChunk L outOfBounds handle none [] = (.ok none, none, []) := by
  have hwait : L.uviDecode [] = .ok none :=
    hL.uviDecode_cut (n := 0) (by decide) List.nil_prefix (hL.uviEncode_ne_nil 0).symm
  simp only [decodeChunk, handleLength, hwait]

/-- The chunk is read when it is complete. -/
lemma decodeChunk_done (hL : L.Lawful) (hsize : data.length ≤ 2 ^ 20)
    (hbounds : outOfBounds data.length = none) {len : Option Nat} {c b rest : Bytes}
    (h : MidChunk L data len c) (e : c ++ b = chunk L data ++ rest) :
    decodeChunk L outOfBounds handle len b = (handle data, none, rest) := by
  have hle := hL.compress_le data hsize
  rw [chunk, List.append_assoc] at e
  simp only [decodeChunk, handleLength_complete hL hsize h e, hbounds]
  rw [List.take_append, List.take_of_length_le hle, hL.readExact_compress]
  simp only [List.drop_left]

/-- A chunk of which bytes are missing is waited for. -/
lemma decodeChunk_wait (handle : Bytes → Except RPCError (Option α)) (hL : L.Lawful)
    (hsize : data.length ≤ 2 ^ 20) (hbounds : outOfBounds data.length = none)
    {len : Option Nat} {c b more : Bytes} (h : MidChunk L data len c) (hmore : more ≠ [])
    (e : c ++ b ++ more = chunk L data) :
    ∃ len' c' b', decodeChunk L outOfBounds handle len b = (.ok none, len', b') ∧
      MidChunk L data len' c' ∧ c' ++ b' = c ++ b := by
  -- some of the compressed bytes are missing
  have hcut : ∀ z, c ++ b = L.uviEncode data.length ++ z → z ++ more = L.compress data →
      decodeChunk L outOfBounds handle len b = (.ok none, some data.length, z) := by
    intro z hz hmissing
    have hlt : z.length < L.maxCompressLen data.length := by
      have hle := hL.compress_le data hsize
      have hpos := List.length_pos_iff.mpr hmore
      rw [← hmissing, List.length_append] at hle
      omega
    simp only [decodeChunk, handleLength_complete hL hsize h hz, hbounds]
    rw [List.take_of_length_le hlt.le, hL.readExact_cut data z more hmore hmissing]
    simp only [handleError, Nat.not_le.mpr hlt, if_false]
  rw [chunk] at e
  rcases List.append_eq_append_iff.mp e with ⟨v, hv, hz⟩ | ⟨z, hz, hmissing⟩
  · by_cases hnil : v = []
    · subst hnil
      rw [List.append_nil] at hv
      exact ⟨_, _, [], hcut [] (by rw [hv, List.append_nil]) (by simpa using hz),
        .inr ⟨rfl, rfl⟩, by rw [hv, List.append_nil]⟩
    · -- some bytes of the length are missing
      rcases h with ⟨rfl, rfl⟩ | ⟨rfl, rfl⟩
      · have hwait : L.uviDecode b = .ok none := by
          refine hL.uviDecode_cut (n := data.length) (by omega) ⟨v, hv.symm⟩ fun e => hnil ?_
          rw [List.nil_append, e] at hv
          exact (List.append_right_eq_self.mp hv.symm)
        refine ⟨none, [], b, ?_, .inl ⟨rfl, rfl⟩, rfl⟩
        simp only [decodeChunk, handleLength, hwait]
      · have hlength := congrArg List.length hv
        have hpos := List.length_pos_iff.mpr hnil
        simp only [List.length_append] at hlength
        omega
  · exact ⟨_, _, z, hcut z hz hmissing.symm, .inr ⟨rfl, rfl⟩, hz.symm⟩

end Chunk

lemma RpcLimits.isOutOfBounds_eq_false_iff {limits : RpcLimits} {length maxRpcSize : Nat} :
    limits.isOutOfBounds length maxRpcSize = false ↔
      limits.min ≤ length ∧ length ≤ limits.max ∧ length ≤ maxRpcSize := by
  simp only [isOutOfBounds, Bool.or_eq_false_iff, decide_eq_false_iff_not, Nat.not_lt,
    Nat.le_min]
  tauto

lemma encodeChunk_isOk_iff {B : Type} {L : Libraries B} {maxPacketSize : Nat} {data dst : Bytes} :
    (encodeChunk L maxPacketSize data dst).isOk = true ↔ data.length ≤ maxPacketSize := by
  rw [encodeChunk]
  split
  case isTrue h => simpa [Except.isOk, Except.toBool] using h
  case isFalse h => simpa [Except.isOk, Except.toBool] using h

lemma encodeChunk_eq {B : Type} {L : Libraries B} {maxPacketSize : Nat} {data : Bytes}
    (h : data.length ≤ maxPacketSize) (dst : Bytes) :
    encodeChunk L maxPacketSize data dst = .ok (dst ++ chunk L data) := by
  rw [encodeChunk, if_neg (Nat.not_lt.mpr h), chunk, List.append_assoc]

/-! ## Requests -/

section Requests

variable {B : Type} (L : Libraries B) (protocol : SupportedProtocol) (maxPacketSize : Nat)

/-- The decoder of the requests of a protocol. -/
def requestDecoder : Decoder (Option Nat) RPCError Request where
  init := none
  decode := SSZSnappyInboundCodec.decode L protocol maxPacketSize

/-- A request is written to the buffer. -/
def putRequest (item : Request) (dst : Bytes) : Bytes :=
  ((SSZSnappyOutboundCodec.encode L maxPacketSize item dst).toOption).getD dst

/-- A request of the protocol that the encoder takes. Metadata requests have no bytes. -/
def RequestFits (item : Request) : Prop :=
  item.versionedProtocol = protocol ∧ protocol ≠ .metaDataV1 ∧
    (SSZSnappyOutboundCodec.encode L maxPacketSize item []).isOk

variable {L protocol maxPacketSize}

/-- A request other than for metadata has a payload of the one length that its protocol allows, from
which it is read. -/
lemma Request.asSszBytes_eq (hL : L.Lawful) {item : Request}
    (hmeta : item.versionedProtocol ≠ .metaDataV1) :
    ∃ data, item.asSszBytes L = some data ∧
      rpcRequestLimits L item.versionedProtocol = ⟨data.length, data.length⟩ ∧
      handleRpcRequest L item.versionedProtocol data = .ok (some item) := by
  have hlimits : ∀ {n m : Nat}, n = m → RpcLimits.mk m m = ⟨n, n⟩ := by
    rintro n _ rfl
    rfl
  cases item with
  | status message =>
    have keeps := hL.statusMessage message
    refine ⟨_, rfl, hlimits keeps.length_asSszBytes, ?_⟩
    simp only [handleRpcRequest, versionedProtocol, keeps.fromSszBytes_asSszBytes]
    rfl
  | goodbye reason =>
    have keeps := hL.u64 reason.toU64
    refine ⟨_, rfl, hlimits keeps.length_asSszBytes, ?_⟩
    simp only [handleRpcRequest, versionedProtocol, GoodbyeReason.fromSszBytes,
      GoodbyeReason.asSszBytes, keeps.fromSszBytes_asSszBytes, Option.map_some,
      GoodbyeReason.fromU64_toU64]
    rfl
  | blocksByRange request =>
    have keeps := hL.blocksByRangeRequest request
    refine ⟨_, rfl, hlimits keeps.length_asSszBytes, ?_⟩
    simp only [handleRpcRequest, versionedProtocol, keeps.fromSszBytes_asSszBytes]
    rfl
  | ping request =>
    -- what is written is a `Ping`, and what is read is a `u64`
    have keeps := hL.u64 request.data
    refine ⟨_, congrArg some (hL.ping_asSszBytes request),
      hlimits (keeps.length_asSszBytes.trans hL.ping_sszFixedLen.symm), ?_⟩
    simp only [handleRpcRequest, versionedProtocol, keeps.fromSszBytes_asSszBytes]
    rfl
  | metaData => exact absurd rfl hmeta

/-- The payload of a request that fits, and how it is read. -/
lemma RequestFits.payload (hL : L.Lawful) {item : Request}
    (h : RequestFits L protocol maxPacketSize item) :
    ∃ data, item.asSszBytes L = some data ∧ data.length ≤ maxPacketSize ∧ data.length ≤ 2 ^ 20 ∧
      requestOutOfBounds L protocol maxPacketSize data.length = none ∧
      handleRpcRequest L protocol data = .ok (some item) := by
  obtain ⟨rfl, hmeta, hok⟩ := h
  obtain ⟨data, hdata, hlimits, hhandle⟩ := item.asSszBytes_eq hL hmeta
  have hle : data.length ≤ maxPacketSize := by
    simp only [SSZSnappyOutboundCodec.encode, hdata] at hok
    exact encodeChunk_isOk_iff.mp hok
  have hsmall := hL.requests_small item.versionedProtocol
  rw [hlimits] at hsmall
  refine ⟨data, hdata, hle, hsmall, ?_, hhandle⟩
  rw [requestOutOfBounds, hlimits, RpcLimits.isOutOfBounds_eq_false_iff.mpr ⟨le_rfl, le_rfl, hle⟩]
  rfl

/-- The bytes of a request. -/
def requestBytes (L : Libraries B) (item : Request) : Bytes :=
  ((item.asSszBytes L).map (chunk L)).getD []

/-- The decoder reads the requests of its protocol. -/
lemma requestDecoder_reads (hL : L.Lawful) (hmeta : protocol ≠ .metaDataV1) :
    (requestDecoder L protocol maxPacketSize).Reads (RequestFits L protocol maxPacketSize)
      (requestBytes L) fun item len c => ∀ data, item.asSszBytes L = some data →
        MidChunk L data len c where
  idle := by
    simp only [requestDecoder, SSZSnappyInboundCodec.decode, if_neg hmeta]
    exact decodeChunk_nil hL
  start := fun _ data _ => .inl ⟨rfl, rfl⟩
  wait := by
    intro item len c b more hitem hmid hmore e
    obtain ⟨data, hdata, _, hsmall, hbounds, _⟩ := hitem.payload hL
    rw [requestBytes, hdata] at e
    obtain ⟨len', c', b', hdecode, hmid', hkept⟩ :=
      decodeChunk_wait (handleRpcRequest L protocol) hL hsmall hbounds (hmid data hdata) hmore e
    refine ⟨len', c', b', ?_, ?_, hkept⟩
    · simp only [requestDecoder, SSZSnappyInboundCodec.decode, if_neg hmeta, hdecode]
    · intro data' hdata'
      cases hdata.symm.trans hdata'
      exact hmid'
  done := by
    intro item len c b rest hitem hmid e
    obtain ⟨data, hdata, _, hsmall, hbounds, hhandle⟩ := hitem.payload hL
    rw [requestBytes, hdata] at e
    simp only [requestDecoder, SSZSnappyInboundCodec.decode, if_neg hmeta,
      decodeChunk_done hL hsmall hbounds (hmid data hdata) e, hhandle]

/-- In every run over a substream, however the bytes are cut, the requests arrive as they were
written, without an error and in order; all of them once nothing is on its way. -/
theorem requests_delivered (hL : L.Lawful) (hmeta : protocol ≠ .metaDataV1)
    {p : Pipe (Option Nat) RPCError Request}
    (run : Run (Pipe.step (requestDecoder L protocol maxPacketSize) (putRequest L maxPacketSize))
      (Pipe.Sends (RequestFits L protocol maxPacketSize))
      (Pipe.start (requestDecoder L protocol maxPacketSize) []) p) :
    p.failure = none ∧ p.frames <+: p.sent ∧
      (p.pending = [] → p.wire = [] →
        (p.poll (requestDecoder L protocol maxPacketSize)).frames = p.frames →
        p.frames = p.sent) := by
  refine Pipe.run_appends (requestDecoder_reads hL hmeta)
    (run.mono fun _ _ ok => ok.appends fun item dst hitem => ?_)
  obtain ⟨data, hdata, hle, _⟩ := hitem.payload hL
  simp [putRequest, SSZSnappyOutboundCodec.encode, hdata, encodeChunk_eq hle, requestBytes,
    Except.toOption]

/-- Two pings are written at once and their bytes arrive in three pieces, with calls of the decoder
in between. -/
def toyPings : List (PipeEvent Request) :=
  [.send (.ping ⟨7⟩), .send (.ping ⟨8⟩), .flush 4, .read 1, .poll, .read 5, .poll, .flush 99,
    .read 99, .poll, .poll]

/-- The run of `toyPings`. -/
theorem requests_delivered_ping :
    (toyPings.foldl
      (fun p e => p.step (requestDecoder .standard .pingV1 1024) (putRequest .standard 1024) e)
      (Pipe.start (requestDecoder .standard .pingV1 1024) [])).frames =
      [.ping ⟨7⟩, .ping ⟨8⟩] := by
  have fits : ∀ data, RequestFits .standard .pingV1 1024 (.ping ⟨data⟩) := fun _ =>
    ⟨rfl, by decide, rfl⟩
  have run : Run (Pipe.step (requestDecoder .standard .pingV1 1024) (putRequest .standard 1024))
      (Pipe.Sends (RequestFits .standard .pingV1 1024))
      (Pipe.start (requestDecoder .standard .pingV1 1024) []) (toyPings.foldl _ _) :=
    Run.ofList (by simp [toyPings, Pipe.Sends, fits])
  have all := (requests_delivered Libraries.standard_lawful (by decide) run).2.2
  exact (all (by decide +kernel) (by decide +kernel) (by decide +kernel)).trans
    (by decide +kernel)

end Requests

/-! ## Responses -/

section Responses

variable {B : Type} (L : Libraries B) (protocol : SupportedProtocol) (maxPacketSize : Nat)

/-- The decoder of the responses to requests of a protocol. -/
def responseDecoder : Decoder BaseOutboundCodec RPCError (RPCCodedResponse B) where
  init := .new
  decode := BaseOutboundCodec.decode L protocol maxPacketSize

/-- A response is written to the buffer. -/
def putResponse (item : RPCCodedResponse B) (dst : Bytes) : Bytes :=
  ((BaseInboundCodec.encode L maxPacketSize item dst).toOption).getD dst

/-- A response to a request of the protocol, or an error, that the encoder takes. -/
structure ResponseFits (item : RPCCodedResponse B) : Prop where
  protocol_eq : ∀ response, item = .success response → response.versionedProtocol = protocol
  encodes : (BaseInboundCodec.encode L maxPacketSize item []).isOk

variable {L protocol maxPacketSize}

/-- A chunk after the code of the response. -/
structure ReadsAs (L : Libraries B) (protocol : SupportedProtocol) (maxPacketSize : Nat)
    (item : RPCCodedResponse B) (code : UInt8) (data : Bytes) : Prop where
  code_eq : item.asU8 = some code
  data_eq : item.asSszBytes L = some data
  size_le : data.length ≤ maxPacketSize
  done : ∀ {len c b rest}, MidChunk L data len c → c ++ b = chunk L data ++ rest →
    BaseOutboundCodec.decodeInner L protocol maxPacketSize code len b =
      (.ok (some item), none, rest)
  wait : ∀ {len c b more}, MidChunk L data len c → more ≠ [] → c ++ b ++ more = chunk L data →
    ∃ len' c' b', BaseOutboundCodec.decodeInner L protocol maxPacketSize code len b =
      (.ok none, len', b') ∧ MidChunk L data len' c' ∧ c' ++ b' = c ++ b

/-- How the payload of a response is read. -/
lemma handleRpcResponse_eq (hL : L.Lawful) (response : RPCResponse B) :
    handleRpcResponse L response.versionedProtocol (response.asSszBytes L) =
      .ok (some response) := by
  cases response with
  | status message =>
    simp [handleRpcResponse, ofSsz, RPCResponse.asSszBytes, RPCResponse.versionedProtocol,
      (hL.statusMessage message).fromSszBytes_asSszBytes]
  | blocksByRange block =>
    simp [handleRpcResponse, RPCResponse.asSszBytes, RPCResponse.versionedProtocol,
      hL.blockFromSlice_toVec]
  | pong ping =>
    simp [handleRpcResponse, ofSsz, RPCResponse.asSszBytes, RPCResponse.versionedProtocol,
      (hL.u64 ping.data).fromSszBytes_asSszBytes]
  | metaData metadata =>
    simp [handleRpcResponse, ofSsz, RPCResponse.asSszBytes, RPCResponse.versionedProtocol,
      (hL.metaData metadata).fromSszBytes_asSszBytes]

/-- The payload of a response is within the limits of its protocol. -/
lemma responseOutOfBounds_eq_none (hL : L.Lawful) (hmax : maxPacketSize ≤ 2 ^ 20)
    (response : RPCResponse B) (hle : (response.asSszBytes L).length ≤ maxPacketSize) :
    responseOutOfBounds L response.versionedProtocol maxPacketSize
      (response.asSszBytes L).length = none := by
  suffices h : (rpcResponseLimits L response.versionedProtocol).isOutOfBounds
      (response.asSszBytes L).length maxPacketSize = false by
    rw [responseOutOfBounds, h]
    rfl
  rw [RpcLimits.isOutOfBounds_eq_false_iff]
  cases response with
  | status message =>
    have hlength := (hL.statusMessage message).length_asSszBytes
    exact ⟨hlength.ge, hlength.le, hle⟩
  | blocksByRange block =>
    exact ⟨List.length_pos_iff.mpr (hL.blockToVec_ne_nil block), hle.trans hmax, hle⟩
  | pong ping =>
    have hlength := (hL.u64 ping.data).length_asSszBytes.trans hL.ping_sszFixedLen.symm
    exact ⟨hlength.ge, hlength.le, hle⟩
  | metaData metadata =>
    have hlength := (hL.metaData metadata).length_asSszBytes
    exact ⟨hlength.ge, hlength.le, hle⟩

/-- `ERROR_TYPE_MAX` and `ERROR_TYPE_MIN` are the bounds of the type. -/
lemma errorTypeMax_eq (hL : L.Lawful) : errorTypeMax L = 256 :=
  (hL.length_errorAsSszBytes _).trans List.length_replicate

lemma errorTypeMin_eq (hL : L.Lawful) : errorTypeMin L = 0 := hL.length_errorAsSszBytes _

/-- Every response that fits is read as it was written. -/
lemma ResponseFits.readsAs (hL : L.Lawful) (hmax : maxPacketSize ≤ 2 ^ 20)
    {item : RPCCodedResponse B} (h : ResponseFits L protocol maxPacketSize item) :
    ∃ code data, ReadsAs L protocol maxPacketSize item code data := by
  obtain ⟨hprotocol, hok⟩ := h
  cases item with
  | success response =>
    obtain rfl := hprotocol response rfl
    have hle := encodeChunk_isOk_iff.mp hok
    have hbounds := responseOutOfBounds_eq_none hL hmax response hle
    refine ⟨0, response.asSszBytes L, rfl, rfl, hle, ?_, ?_⟩
    · intro len c b rest hmid e
      simp only [BaseOutboundCodec.decodeInner, SSZSnappyOutboundCodec.decode,
        decodeChunk_done hL (hle.trans hmax) hbounds hmid e, handleRpcResponse_eq hL]
      rfl
    · intro len c b more hmid hmore e
      obtain ⟨len', c', b', hdecode, hmid', hkept⟩ :=
        decodeChunk_wait (handleRpcResponse L response.versionedProtocol) hL (hle.trans hmax)
          hbounds hmid hmore e
      refine ⟨len', c', b', ?_, hmid', hkept⟩
      simp only [BaseOutboundCodec.decodeInner, SSZSnappyOutboundCodec.decode, hdecode]
      rfl
  | error code err =>
    have hle := encodeChunk_isOk_iff.mp hok
    have hbounds : errorOutOfBounds L maxPacketSize (L.errorAsSszBytes err).length = none := by
      have hlength := hL.length_errorAsSszBytes err
      have hbound := err.length_le
      rw [errorOutOfBounds, errorTypeMax_eq hL, errorTypeMin_eq hL, if_neg (by omega)]
    have hcode := isResponse_errorCode code
    refine ⟨errorCode code, L.errorAsSszBytes err, rfl, rfl, hle, ?_, ?_⟩
    · intro len c b rest hmid e
      simp only [BaseOutboundCodec.decodeInner, hcode, SSZSnappyOutboundCodec.decodeError,
        decodeChunk_done hL (hle.trans hmax) hbounds hmid e, hL.errorFromSszBytes_asSszBytes,
        ofSsz]
      simp [Except.map, RPCCodedResponse.fromError_errorCode]
    · intro len c b more hmid hmore e
      obtain ⟨len', c', b', hdecode, hmid', hkept⟩ :=
        decodeChunk_wait (fun data => ofSsz (L.errorFromSszBytes data)) hL (hle.trans hmax)
          hbounds hmid hmore e
      refine ⟨len', c', b', ?_, hmid', hkept⟩
      simp [BaseOutboundCodec.decodeInner, hcode, SSZSnappyOutboundCodec.decodeError, hdecode,
        Except.map]
  | streamTermination termination => cases hok

/-- The bytes of a response. -/
def responseBytes (L : Libraries B) (item : RPCCodedResponse B) : Bytes :=
  item.asU8.toList ++ ((item.asSszBytes L).map (chunk L)).getD []

lemma ReadsAs.bytes_eq {item : RPCCodedResponse B} {code : UInt8} {data : Bytes}
    (h : ReadsAs L protocol maxPacketSize item code data) :
    responseBytes L item = code :: chunk L data := by
  rw [responseBytes, h.code_eq, h.data_eq]
  rfl

/-- A payload without bytes is one byte. -/
lemma length_chunk_nil (hL : L.Lawful) : (chunk L []).length = 1 := by
  rw [chunk, hL.compress_nil, List.append_nil, List.length_nil, hL.length_uviEncode_zero]

/-- The part of a response that was taken out of the buffer: nothing, or the code and a part of the
chunk. The code of a response without payload is never taken alone. -/
def MidResponse (L : Libraries B) (item : RPCCodedResponse B) (codec : BaseOutboundCodec)
    (c : Bytes) : Prop :=
  codec = .new ∧ c = [] ∨
    ∃ code data c', item.asU8 = some code ∧ item.asSszBytes L = some data ∧ data ≠ [] ∧
      codec.currentResponseCode = some code ∧ c = code :: c' ∧ MidChunk L data codec.len c'

/-- With one byte or none the decoder waits. -/
lemma decode_short {codec : BaseOutboundCodec} {b : Bytes} (h : b.length ≤ 1) :
    BaseOutboundCodec.decode L protocol maxPacketSize codec b = (.ok none, codec, b) := by
  match b, h with
  | [], _ => rfl
  | [_], _ => rfl
  | _ :: _ :: _, h => simp at h

/-- With two bytes it goes on with the code it has, or takes the first byte as the code. -/
lemma decode_long {codec : BaseOutboundCodec} {b : Bytes} (h : 2 ≤ b.length) :
    BaseOutboundCodec.decode L protocol maxPacketSize codec b =
      match codec.currentResponseCode with
      | some code => BaseOutboundCodec.decodeCoded L protocol maxPacketSize code codec.len b
      | none =>
        BaseOutboundCodec.decodeCoded L protocol maxPacketSize (b.headD 0) codec.len b.tail := by
  match b, h with
  | [], h => simp at h
  | [_], h => simp at h
  | _ :: _ :: _, _ => rfl

/-- The decoder reads the responses of its protocol. -/
lemma responseDecoder_reads (hL : L.Lawful) (hmax : maxPacketSize ≤ 2 ^ 20) :
    (responseDecoder L protocol maxPacketSize).Reads (ResponseFits L protocol maxPacketSize)
      (responseBytes L) (MidResponse L) where
  idle := rfl
  start := fun _ => .inl ⟨rfl, rfl⟩
  wait := by
    intro item codec c b more hitem hmid hmore e
    obtain ⟨code, data, hreads⟩ := hitem.readsAs hL hmax
    rw [hreads.bytes_eq] at e
    by_cases hshort : b.length ≤ 1
    · exact ⟨codec, c, b, decode_short hshort, hmid, rfl⟩
    have hlong : 2 ≤ b.length := by omega
    rcases hmid with ⟨rfl, rfl⟩ | ⟨code', data', c', hcode, hdata, hne, hcurrent, rfl, hmid⟩
    · -- the code is taken together with a part of the chunk
      obtain ⟨first, b, rfl⟩ := List.exists_cons_of_length_pos (l := b) (by omega)
      obtain ⟨rfl, hchunk⟩ : first = code ∧ b ++ more = chunk L data := List.cons.inj e
      obtain ⟨len', c', b', hdecode, hmid', hkept⟩ := hreads.wait (.inl ⟨rfl, rfl⟩) hmore hchunk
      refine ⟨⟨some first, len'⟩, first :: c', b', ?_, ?_, ?_⟩
      · show BaseOutboundCodec.decode L protocol maxPacketSize .new (first :: b) = _
        rw [decode_long hlong]
        show BaseOutboundCodec.decodeCoded L protocol maxPacketSize first none b = _
        rw [BaseOutboundCodec.decodeCoded, hdecode]
      · refine .inr ⟨first, data, c', hreads.code_eq, hreads.data_eq, ?_, rfl, rfl, hmid'⟩
        rintro rfl
        have hlength := congrArg List.length hchunk
        have hpos := List.length_pos_iff.mpr hmore
        rw [length_chunk_nil hL] at hlength
        rw [List.length_append] at hlength
        rw [List.length_cons] at hlong
        omega
      · rw [List.cons_append, hkept]
        rfl
    · cases hcode.symm.trans hreads.code_eq
      cases hdata.symm.trans hreads.data_eq
      obtain ⟨len', c', b', hdecode, hmid', hkept⟩ :=
        hreads.wait hmid hmore (List.cons.inj e).2
      refine ⟨⟨some code, len'⟩, code :: c', b', ?_, ?_, ?_⟩
      · show BaseOutboundCodec.decode L protocol maxPacketSize codec b = _
        rw [decode_long hlong, hcurrent]
        show BaseOutboundCodec.decodeCoded L protocol maxPacketSize code codec.len b = _
        rw [BaseOutboundCodec.decodeCoded, hdecode]
      · exact .inr ⟨code, data, c', hcode, hdata, hne, rfl, rfl, hmid'⟩
      · rw [List.cons_append, hkept]
        rfl
  done := by
    intro item codec c b rest hitem hmid e
    obtain ⟨code, data, hreads⟩ := hitem.readsAs hL hmax
    rw [hreads.bytes_eq] at e
    have hchunk := List.length_pos_iff.mpr (hL.uviEncode_ne_nil data.length)
    rcases hmid with ⟨rfl, rfl⟩ | ⟨code', data', c', hcode, hdata, hne, hcurrent, rfl, hmid⟩
    · rw [List.nil_append, List.cons_append] at e
      subst e
      show BaseOutboundCodec.decode L protocol maxPacketSize .new
        (code :: (chunk L data ++ rest)) = _
      rw [decode_long (by simp only [chunk, List.length_cons, List.length_append]; omega)]
      show BaseOutboundCodec.decodeCoded L protocol maxPacketSize code none
        (chunk L data ++ rest) = _
      have hdone : BaseOutboundCodec.decodeInner L protocol maxPacketSize code none
          (chunk L data ++ rest) = (.ok (some item), none, rest) :=
        hreads.done (.inl ⟨rfl, rfl⟩) (List.nil_append _)
      rw [BaseOutboundCodec.decodeCoded, hdone]
      rfl
    · cases hcode.symm.trans hreads.code_eq
      cases hdata.symm.trans hreads.data_eq
      have e : c' ++ b = chunk L data ++ rest := (List.cons.inj e).2
      have hlong : 2 ≤ b.length := by
        have htwo := hL.two_le_compress data hne
        have hlength := congrArg List.length e
        simp only [chunk, List.length_append] at hlength
        rcases hmid with ⟨_, rfl⟩ | ⟨_, rfl⟩
        · rw [List.length_nil] at hlength
          omega
        · omega
      show BaseOutboundCodec.decode L protocol maxPacketSize codec b = _
      rw [decode_long hlong, hcurrent]
      show BaseOutboundCodec.decodeCoded L protocol maxPacketSize code codec.len b = _
      rw [BaseOutboundCodec.decodeCoded, hreads.done hmid e]
      rfl

/-- In every run over a substream, however the bytes are cut, the responses arrive as they were
written, without an error and in order; all of them once nothing is on its way. Each response has to
be flushed before the next one is encoded. -/
theorem responses_delivered (hL : L.Lawful) (hmax : maxPacketSize ≤ 2 ^ 20)
    {p : Pipe BaseOutboundCodec RPCError (RPCCodedResponse B)}
    (run : Run (Pipe.step (responseDecoder L protocol maxPacketSize) (putResponse L maxPacketSize))
      (Pipe.Flushed (ResponseFits L protocol maxPacketSize))
      (Pipe.start (responseDecoder L protocol maxPacketSize) []) p) :
    p.failure = none ∧ p.frames <+: p.sent ∧
      (p.pending = [] → p.wire = [] →
        (p.poll (responseDecoder L protocol maxPacketSize)).frames = p.frames →
        p.frames = p.sent) := by
  refine Pipe.run_appends (responseDecoder_reads hL hmax)
    (run.mono fun _ _ ok => ok.appends fun item hitem => ?_)
  obtain ⟨code, data, hreads⟩ := hitem.readsAs hL hmax
  simp [putResponse, BaseInboundCodec.encode, SSZSnappyInboundCodec.encode, hreads.code_eq,
    hreads.data_eq, encodeChunk_eq hreads.size_le, hreads.bytes_eq, Except.toOption]

/-- Two blocks, the first of which arrives in two pieces. -/
theorem responses_delivered_blocks :
    (([.send (.success (.blocksByRange 5)), .flush 30, .flush 1, .read 12, .poll,
      .send (.success (.blocksByRange 6)), .read 9, .flush 30, .poll, .poll, .read 30, .poll] :
      List (PipeEvent (RPCCodedResponse UInt8))).foldl
        (fun p e => p.step (responseDecoder .standard .blocksByRange 1024)
          (putResponse .standard 1024) e)
        (Pipe.start (responseDecoder .standard .blocksByRange 1024) [])).frames =
      [.success (.blocksByRange 5), .success (.blocksByRange 6)] := by
  have hfits : ∀ block, ResponseFits .standard .blocksByRange 1024
      (.success (.blocksByRange block)) := by
    intro block
    refine ⟨fun response e => ?_, encodeChunk_isOk_iff.mpr ?_⟩
    · cases e
      rfl
    · show (if block < 128 then [block] else [0xcc, block]).length ≤ 1024
      split <;> simp
  have start : Run
      (Pipe.step (responseDecoder .standard .blocksByRange 1024) (putResponse .standard 1024))
      (Pipe.Flushed (ResponseFits .standard .blocksByRange 1024))
      (Pipe.start (responseDecoder .standard .blocksByRange 1024) []) _ := .refl
  have first := start.snoc (.send (.success (.blocksByRange 5))) ⟨hfits 5, rfl⟩
  have flushed := (first.snoc (.flush 30) trivial).snoc (.flush 1) trivial
  have half := (flushed.snoc (.read 12) trivial).snoc .poll trivial
  have second := half.snoc (.send (.success (.blocksByRange 6)))
    ⟨hfits 6, by decide +kernel⟩
  have mixed := (((second.snoc (.read 9) trivial).snoc (.flush 30) trivial).snoc .poll trivial).snoc
    .poll trivial
  have run := (mixed.snoc (.read 30) trivial).snoc .poll trivial
  have all := (responses_delivered Libraries.standard_lawful (by decide) run).2.2
  exact (all (by decide +kernel) (by decide +kernel) (by decide +kernel)).trans
    (by decide +kernel)

end Responses

/-! ## Whatever the peer sends -/

/-- What is assumed of the outside libraries on any bytes: a number is waited for with nine bytes at
most, the reader fills what it is asked to fill and stops at the end of the bytes only, and an error
message is as long as its bytes. -/
structure Libraries.Measured {B : Type} (L : Libraries B) : Prop where
  uviDecode : ∀ {bytes}, L.uviDecode bytes = .ok none → bytes.length ≤ 9
  maxCompressLen_le : ∀ n, L.maxCompressLen n ≤ 32 + n + n / 6
  filled : ∀ {n bytes data position}, L.readExact n bytes = .filled data position → data.length = n
  unexpectedEof : ∀ {n bytes position}, L.readExact n bytes = .unexpectedEof position →
    position = bytes.length
  errorFromSszBytes : ∀ {data err}, L.errorFromSszBytes data = some err →
    err.bytes.length = data.length

/-- The formats satisfy the assumptions. -/
lemma Libraries.standard_measured : Libraries.standard.Measured where
  uviDecode := by
    intro bytes h
    simp only [standard] at h
    split at h
    case h_1 => cases h
    case h_2 hwait => exact Varint.decode_insufficient hwait
    case h_3 => cases h
    case h_4 => cases h
  maxCompressLen_le := Snappy.maxCompressLen_le
  filled := by
    intro n bytes data position h
    simp only [standard] at h
    split at h
    case h_1 hfilled =>
      cases h
      exact Snappy.readLoop_filled hfilled
    case h_2 => cases h
    case h_3 => cases h
  unexpectedEof := by
    intro n bytes position h
    simp only [standard] at h
    split at h
    case h_1 => cases h
    case h_2 =>
      cases h
      rfl
    case h_3 => cases h
  errorFromSszBytes := by
    intro data err h
    simp only [standard] at h
    split at h
    case isTrue =>
      cases h
      rfl
    case isFalse => cases h

section Hostile

variable {B α : Type} {L : Libraries B} {outOfBounds : Nat → Option RPCError}
  {handle : Bytes → Except RPCError (Option α)} {len len' : Option Nat} {src src' : Bytes}

/-- The length is waited for with nine bytes at most. -/
lemma handleLength_waiting (hL : L.Measured)
    (h : handleLength L len src = (.ok none, len', src')) : src'.length ≤ 9 := by
  unfold handleLength at h
  split at h
  case h_1 => cases h
  case h_2 =>
    split at h
    case h_1 => cases h
    case h_2 hwait =>
      cases h
      exact hL.uviDecode hwait
    case h_3 => cases h

/-- A decoder that waits has less than the compressed form of the longest payload. -/
lemma decodeChunk_waiting (hL : L.Measured) (hhandle : ∀ data, handle data ≠ .ok none) {m : Nat}
    (hbounds : ∀ length, outOfBounds length = none → length ≤ m)
    (h : decodeChunk L outOfBounds handle len src = (.ok none, len', src')) :
    src'.length < 32 + m + m / 6 := by
  unfold decodeChunk at h
  split at h
  case h_1 => cases h
  case h_2 hlength =>
    cases h
    have := handleLength_waiting hL hlength
    omega
  case h_3 length _ _ _ =>
    split at h
    case h_1 => cases h
    case h_2 hnone =>
      have hmax := hL.maxCompressLen_le length
      have hle := hbounds length hnone
      split at h
      case h_1 data position _ => exact absurd (congrArg Prod.fst h) (hhandle data)
      case h_2 position heof =>
        rw [Prod.mk.injEq, Prod.mk.injEq] at h
        obtain ⟨herror, _, rfl⟩ := h
        unfold handleError at herror
        split at herror
        case isTrue => cases herror
        case isFalse hlt =>
          rw [hL.unexpectedEof heof, List.length_take] at hlt
          omega
      case h_3 => cases h

/-- What is read is a payload within the limits. -/
lemma decodeChunk_accepted (hL : L.Measured) {a : α}
    (h : decodeChunk L outOfBounds handle len src = (.ok (some a), len', src')) :
    ∃ data, outOfBounds data.length = none ∧ handle data = .ok (some a) := by
  unfold decodeChunk at h
  split at h
  case h_1 => cases h
  case h_2 => cases h
  case h_3 =>
    split at h
    case h_1 => cases h
    case h_2 hnone =>
      split at h
      case h_1 data position hfilled =>
        exact ⟨data, hL.filled hfilled ▸ hnone, congrArg Prod.fst h⟩
      case h_2 =>
        rw [Prod.mk.injEq] at h
        obtain ⟨herror, _⟩ := h
        unfold handleError at herror
        split at herror <;> cases herror
      case h_3 => cases h

end Hostile

section Responses

variable {B : Type} {L : Libraries B} {protocol : SupportedProtocol} {maxPacketSize : Nat}

/-- What a peer may send in response to a request of the protocol: a response of the protocol, read
from a payload within its limits, or an error. -/
inductive Admissible (L : Libraries B) (protocol : SupportedProtocol) (maxPacketSize : Nat) :
    RPCCodedResponse B → Prop where
  | success {response data} (protocol_eq : response.versionedProtocol = protocol)
    (size_le : data.length ≤ maxPacketSize)
    (limits : (rpcResponseLimits L protocol).min ≤ data.length ∧
      data.length ≤ (rpcResponseLimits L protocol).max)
    (reads : handleRpcResponse L protocol data = .ok (some response)) :
    Admissible L protocol maxPacketSize (.success response)
  | error {code err} (size_le : err.bytes.length ≤ maxPacketSize) :
    Admissible L protocol maxPacketSize (.error code err)

lemma handleRpcResponse_ne_none (data : Bytes) :
    handleRpcResponse L protocol data ≠ .ok none := by
  have hofSsz : ∀ {α : Type} (value : Option α), ofSsz value ≠ .ok none := by
    intro α value
    cases value <;> simp [ofSsz]
  cases protocol with
  | statusV1 => exact hofSsz _
  | goodbyeV1 => simp [handleRpcResponse]
  | blocksByRange =>
    simp only [handleRpcResponse]
    cases L.blockFromSlice data <;> simp
  | pingV1 => exact hofSsz _
  | metaDataV1 => exact hofSsz _

/-- What is read belongs to the protocol. -/
lemma versionedProtocol_of_handleRpcResponse {data : Bytes} {response : RPCResponse B}
    (h : handleRpcResponse L protocol data = .ok (some response)) :
    response.versionedProtocol = protocol := by
  have hofSsz : ∀ {α : Type} {f : α → RPCResponse B} {value : Option α},
      ofSsz (value.map f) = .ok (some response) → ∃ a, f a = response := by
    intro α f value e
    cases value with
    | none => cases e
    | some a =>
      cases e
      exact ⟨a, rfl⟩
  cases protocol with
  | statusV1 =>
    obtain ⟨_, rfl⟩ := hofSsz h
    rfl
  | goodbyeV1 => cases h
  | blocksByRange =>
    simp only [handleRpcResponse] at h
    split at h
    · cases h
      rfl
    · cases h
  | pingV1 =>
    obtain ⟨_, rfl⟩ := hofSsz h
    rfl
  | metaDataV1 =>
    obtain ⟨_, rfl⟩ := hofSsz h
    rfl

lemma responseOutOfBounds_eq_none_iff {length : Nat} :
    responseOutOfBounds L protocol maxPacketSize length = none ↔
      (rpcResponseLimits L protocol).min ≤ length ∧ length ≤ (rpcResponseLimits L protocol).max ∧
        length ≤ maxPacketSize := by
  rw [responseOutOfBounds, ← RpcLimits.isOutOfBounds_eq_false_iff]
  cases (rpcResponseLimits L protocol).isOutOfBounds length maxPacketSize <;> simp

lemma le_of_errorOutOfBounds {length : Nat} (h : errorOutOfBounds L maxPacketSize length = none) :
    length ≤ maxPacketSize := by
  unfold errorOutOfBounds at h
  split at h
  case isTrue => cases h
  case isFalse hin => omega

lemma map_map_eq_ok_none {β γ : Type} {r : Except RPCError (Option β)} {f : β → γ} :
    (r.map fun a => a.map f) = .ok none ↔ r = .ok none := by
  cases r with
  | error e => simp [Except.map]
  | ok a => simp [Except.map]

lemma map_map_eq_ok_some {β γ : Type} {r : Except RPCError (Option β)} {f : β → γ} {c : γ} :
    (r.map fun a => a.map f) = .ok (some c) ↔ ∃ a, r = .ok (some a) ∧ f a = c := by
  cases r with
  | error e => simp [Except.map]
  | ok a => simp [Except.map]

variable {code : UInt8} {len len' : Option Nat} {src src' : Bytes}

/-- The bytes that wait are bounded. -/
lemma decodeInner_waiting (hL : L.Measured)
    (h : BaseOutboundCodec.decodeInner L protocol maxPacketSize code len src =
      (.ok none, len', src')) : src'.length < 32 + maxPacketSize + maxPacketSize / 6 := by
  unfold BaseOutboundCodec.decodeInner at h
  split at h
  · rw [Prod.mk.injEq, map_map_eq_ok_none] at h
    exact decodeChunk_waiting hL handleRpcResponse_ne_none
      (fun _ hnone => (responseOutOfBounds_eq_none_iff.mp hnone).2.2) (Prod.ext h.1 h.2)
  · rw [Prod.mk.injEq, map_map_eq_ok_none] at h
    refine decodeChunk_waiting hL (fun data => ?_)
      (fun _ hnone => le_of_errorOutOfBounds hnone) (Prod.ext h.1 h.2)
    cases L.errorFromSszBytes data <;> simp [ofSsz]

lemma fromError_eq (code : UInt8) (err : ErrorType) :
    ∃ c, RPCCodedResponse.fromError (B := B) code err = .error c err := by
  unfold RPCCodedResponse.fromError
  split_ifs <;> exact ⟨_, rfl⟩

/-- A response that is accepted is admissible. -/
lemma decodeInner_accepted (hL : L.Measured) {m : RPCCodedResponse B}
    (h : BaseOutboundCodec.decodeInner L protocol maxPacketSize code len src =
      (.ok (some m), len', src')) : Admissible L protocol maxPacketSize m := by
  unfold BaseOutboundCodec.decodeInner at h
  split at h
  · rw [Prod.mk.injEq, map_map_eq_ok_some] at h
    obtain ⟨⟨response, hdecode, rfl⟩, hrest⟩ := h
    obtain ⟨data, hbounds, hhandle⟩ := decodeChunk_accepted hL (Prod.ext hdecode hrest)
    obtain ⟨hmin, hlimit, hsize⟩ := responseOutOfBounds_eq_none_iff.mp hbounds
    exact .success (versionedProtocol_of_handleRpcResponse hhandle) hsize ⟨hmin, hlimit⟩ hhandle
  · rw [Prod.mk.injEq, map_map_eq_ok_some] at h
    obtain ⟨⟨err, hdecode, rfl⟩, hrest⟩ := h
    obtain ⟨data, hbounds, hhandle⟩ := decodeChunk_accepted hL (Prod.ext hdecode hrest)
    obtain ⟨c, hc⟩ := fromError_eq (B := B) code err
    have hlength : err.bytes.length = data.length := by
      refine hL.errorFromSszBytes ?_
      cases herr : L.errorFromSszBytes data with
      | none =>
        rw [herr] at hhandle
        cases hhandle
      | some _ =>
        rw [herr] at hhandle
        cases hhandle
        rfl
    rw [hc]
    exact .error (hlength.le.trans (le_of_errorOutOfBounds hbounds))

/-- A call of the decoder on any bytes in any state: if it waits, the buffer is bounded, and if it
reads a response, the response is admissible. -/
lemma decode_bounded (hL : L.Measured) {codec codec' : BaseOutboundCodec}
    {r : Except RPCError (Option (RPCCodedResponse B))}
    (h : BaseOutboundCodec.decode L protocol maxPacketSize codec src = (r, codec', src')) :
    (r = .ok none → src'.length ≤ 32 + maxPacketSize + maxPacketSize / 6) ∧
      ∀ m, r = .ok (some m) → Admissible L protocol maxPacketSize m := by
  have hcoded : ∀ {code len src}, BaseOutboundCodec.decodeCoded L protocol maxPacketSize code len
      src = (r, codec', src') →
      (r = .ok none → src'.length ≤ 32 + maxPacketSize + maxPacketSize / 6) ∧
        ∀ m, r = .ok (some m) → Admissible L protocol maxPacketSize m := by
    intro code len src h
    unfold BaseOutboundCodec.decodeCoded at h
    split at h
    case h_1 hinner =>
      cases h
      refine ⟨nofun, fun m e => ?_⟩
      cases e
      exact decodeInner_accepted hL hinner
    case h_2 hinner =>
      cases h
      exact ⟨fun _ => (decodeInner_waiting hL hinner).le, nofun⟩
    case h_3 =>
      cases h
      exact ⟨nofun, nofun⟩
  by_cases hshort : src.length ≤ 1
  · rw [decode_short hshort] at h
    cases h
    exact ⟨fun _ => by omega, nofun⟩
  · rw [decode_long (by omega)] at h
    split at h
    · exact hcoded h
    · exact hcoded h

/-- Whatever bytes a peer sends, however they are cut: every response that is read belongs to the
protocol that was asked and has a payload within its limits, and while the decoder waits, it holds
no more than the compressed form of the longest payload. -/
theorem responses_bounded (hL : L.Measured) {wire : Bytes}
    {p : Pipe BaseOutboundCodec RPCError (RPCCodedResponse B)}
    (run : Run (Pipe.step (responseDecoder L protocol maxPacketSize) (putResponse L maxPacketSize))
      (fun _ _ => True) (Pipe.start (responseDecoder L protocol maxPacketSize) wire) p) :
    (∀ m ∈ p.frames, Admissible L protocol maxPacketSize m) ∧
      ((p.poll (responseDecoder L protocol maxPacketSize)).failure = none →
        (p.poll (responseDecoder L protocol maxPacketSize)).frames = p.frames →
        (p.poll (responseDecoder L protocol maxPacketSize)).buffer.length ≤
          32 + maxPacketSize + maxPacketSize / 6) := by
  refine ⟨Pipe.forall_frames (fun s b m s' b' h => ?_) run, fun hok hquiet => ?_⟩
  · exact (decode_bounded hL h).2 m rfl
  · exact (decode_bounded hL (Pipe.decode_of_poll hok hquiet)).1 rfl

/-- A peer that sends the code and the length of a block of a thousand bytes, and no more. -/
theorem responses_bounded_stalled :
    ((((Pipe.start (responseDecoder .standard .blocksByRange 1024) [0, 232, 7, 1, 2, 3]).step
      (responseDecoder .standard .blocksByRange 1024) (putResponse .standard 1024) (.read 9)).poll
      (responseDecoder .standard .blocksByRange 1024)).buffer.length ≤ 32 + 1024 + 1024 / 6) :=
  (responses_bounded Libraries.standard_measured (Run.refl.snoc (.read 9) trivial)).2 rfl rfl

end Responses

end Alys.Rpc.Wire
