import Alys.Chain.HashCache
import Alys.Chain.Submission
import Alys.Lib.Numeral
import Alys.Pow.Adjustment
import Alys.Pow.Mine
import Alys.Pow.Wire

/-!
# The JSON-RPC server

Model of `app/src/rpc.rs` and of the JSON form of `AuxBlock` in `app/src/auxpow_miner.rs`. The
server has one table of bundles for all its clients, and it serves one request at a time.

JSON itself is left out: the body of a request is given with its fields, and blocks and headers
stand for their own encodings. A request that the server does not answer ends with an error; a panic
ends the node, because the profile sets `panic = "abort"`.

Clients cannot change the chain (`requests_keep_chain`). But any of them can end the node, by a
request that only reads (`request_crashes`).
-/

namespace Alys
open Lib

/-! ## Requests and responses -/

/-- The methods of the server, and any other. -/
inductive RpcMethod where
  | createauxblock
  | submitauxblock
  | getdepositaddress
  | getheadblock
  | getblockbyheight
  | getblockbyhash
  | getqueuedpow
  | unknown
  deriving DecidableEq

/-- The parameters of a request, as far as the server tells them apart. -/
inductive RpcParams where
  | text (text : Text)
  | texts (texts : List Text)
  /-- a number without a sign, a fraction or an exponent -/
  | number (n : Nat)
  | other

structure JsonRpcRequestV1 where
  method : RpcMethod
  params : Option RpcParams
  id : Text

/-- A request by HTTP; there is no `body` if it does not parse. -/
structure HttpRequest where
  post : Bool
  body : Option JsonRpcRequestV1

structure JsonRpcErrorV1 where
  code : Int
  message : Text

namespace JsonRpcErrorV1

def invalidRequest : JsonRpcErrorV1 := ⟨-32600, "Invalid Request".toList⟩

def methodNotFound : JsonRpcErrorV1 := ⟨-32601, "Method not found".toList⟩

def invalidParams : JsonRpcErrorV1 := ⟨-32602, "Invalid params".toList⟩

def blockNotFound : JsonRpcErrorV1 := ⟨-32604, "Block not found".toList⟩

def debugError (errorMsg : Text) : JsonRpcErrorV1 := ⟨-32605, errorMsg⟩

def chainSyncingError : JsonRpcErrorV1 := ⟨-32606, "Chain is syncing".toList⟩

end JsonRpcErrorV1

/-- The JSON form of an `AuxBlock`. -/
structure AuxBlockJson where
  hash : Text
  chainid : Nat
  previousblockhash : Text
  coinbasevalue : Nat
  bits : Text
  height : Nat

/-- The results of the methods. -/
inductive RpcResult where
  | null
  | auxBlock (block : AuxBlockJson)
  | address (address : Text)
  | block (block : Option SignedConsensusBlock)
  | queuedPow (pow : AuxPowHeader)

structure JsonRpcResponseV1 where
  result : Option RpcResult
  error : Option JsonRpcErrorV1
  id : Text

inductive HttpBody where
  | text (text : Text)
  | json (response : JsonRpcResponseV1)

structure HttpResponse where
  status : Nat
  body : HttpBody

/-- `new_json_rpc_error!`. -/
def newJsonRpcError (id : Text) (status : Nat) (error : JsonRpcErrorV1) : HttpResponse :=
  ⟨status, .json ⟨none, some error, id⟩⟩

/-- A response with a result. -/
def jsonRpcResult (id : Text) (result : RpcResult) : HttpResponse :=
  ⟨200, .json ⟨some result, none, id⟩⟩

/-! ## The JSON form of an AuxBlock -/

/-- `block_hash_to_consensus_hex`. -/
def blockHashToConsensusHex (L : WireCodecs) (hash : BlockHash) : Text :=
  encodeHex (L.hash.encode hash)

/-- `block_hash_from_consensus_hex`. -/
def blockHashFromConsensusHex (L : WireCodecs) (text : Text) : Option BlockHash := do
  let bytes ← decodeHex text
  let (hash, _) ← L.hash.decode bytes
  return hash

/-- `compact_target_to_hex`. -/
def compactTargetToHex (bits : Nat) : Text := Nat.toDigits 16 bits

/-- `compact_target_from_hex`. -/
def compactTargetFromHex (text : Text) : Option Nat := parseNumeral 16 (2 ^ 32 - 1) text

def AuxBlock.serialize (L : WireCodecs) (block : AuxBlock) : AuxBlockJson where
  hash := blockHashToConsensusHex L block.hash
  chainid := block.chainId
  previousblockhash := blockHashToConsensusHex L block.previousBlockHash
  coinbasevalue := block.coinbaseValue
  bits := compactTargetToHex block.bits
  height := block.height

def AuxBlock.deserialize (L : WireCodecs) (json : AuxBlockJson) : Option AuxBlock := do
  let hash ← blockHashFromConsensusHex L json.hash
  let previousBlockHash ← blockHashFromConsensusHex L json.previousblockhash
  let bits ← compactTargetFromHex json.bits
  return ⟨hash, json.chainid, previousBlockHash, json.coinbasevalue, bits, json.height⟩

/-! ## The server -/

/-- Where the message of a `debug_error` comes from. -/
inductive RpcCause where
  | json
  | hex
  | hashLength
  | auxpow
  | height

/-- A value or the cause why there is none. -/
def RpcCause.okOr {α : Type} (cause : RpcCause) : Option α → Except RpcCause α
  | some a => .ok a
  | none => .error cause

/-- What the server is started with, and two functions of its libraries. -/
structure RpcServer where
  cfg : ChainConfig
  signer : Option BitcoinSigner
  federationAddress : Text
  wire : WireCodecs
  /-- the `Deserialize` instance of `EvmAddress` -/
  evmAddress : Text → Option Address
  /-- `to_string` of an error -/
  describe : RpcCause → Text

/-- `decode_submitauxblock_args`. -/
def decodeSubmitauxblockArgs (L : WireCodecs) : RpcParams → Except RpcCause (BlockHash × AuxPow)
  | .texts [blockhashStr, auxpowStr] => do
    let blockhash ← RpcCause.hex.okOr (decodeHex blockhashStr)
    if blockhash.length ≠ 32 then
      throw .hashLength
    let auxpowBytes ← RpcCause.hex.okOr (decodeHex auxpowStr)
    let (auxpow, _) ← RpcCause.auxpow.okOr (AuxPow.consensusDecode L auxpowBytes)
    return (blockhash, auxpow)
  | _ => .error .json

namespace RpcServer

variable (P : Primitives) (S : RpcServer)

/-- The only parameter of `createauxblock`. -/
def minerAddress : RpcParams → Option Address
  | .texts [text] => S.evmAddress text
  | _ => none

/-- The answer to the result of `create_aux_block`. -/
def onCreated (id : Text) : Except Failure AuxBlock → Except Failure HttpResponse
  | .ok block => .ok (jsonRpcResult id (.auxBlock (block.serialize S.wire)))
  | .error (.error _) => .ok (newJsonRpcError id 503 .chainSyncingError)
  | .error .panic => .error .panic
  | .error .diverge => .error .diverge

def createauxblock (id : Text) (params : RpcParams) : Action AuxPowMiner Failure HttpResponse :=
  match S.minerAddress params with
  | none => return newJsonRpcError id 400 .invalidParams
  | some address => fun m =>
    let r := AuxPowMiner.createAuxBlock P S.cfg address m
    (S.onCreated id r.1, r.2)

/-- Errors of `submit_aux_block` are not answered. -/
def submitauxblock (id : Text) (params : RpcParams) : Action AuxPowMiner Failure HttpResponse :=
  match decodeSubmitauxblockArgs S.wire params with
  | .error cause => return newJsonRpcError id 400 (.debugError (S.describe cause))
  | .ok (hash, auxpow) => do
    AuxPowMiner.submitAuxBlock P S.cfg S.signer hash auxpow
    return jsonRpcResult id .null

/-- An error is answered as if it were a result. -/
def getheadblock (id : Text) (s : Storage) : Except Failure HttpResponse :=
  match s.getHead with
  | .ok head => .ok (jsonRpcResult id (.block (some head)))
  | .error (.error _) => .ok (newJsonRpcError id 200 .blockNotFound)
  | .error .panic => .error .panic
  | .error .diverge => .error .diverge

def getblockbyheight (id : Text) (s : Storage) : RpcParams → Except Failure HttpResponse
  | .number n =>
    if n < 2 ^ 64 then .ok (jsonRpcResult id (.block (s.getBlockByHeight n)))
    else .ok (newJsonRpcError id 400 (.debugError (S.describe .height)))
  | _ => .ok (newJsonRpcError id 400 (.debugError (S.describe .height)))

/-- `Hash256::from_slice` panics for any other length than 32. -/
def getblockbyhash (id : Text) (s : Storage) : RpcParams → Except Failure HttpResponse
  | .text value =>
    match decodeHex value with
    | none => .error (.error .genericError)
    | some bytes =>
      if bytes.length = 32 then .ok (jsonRpcResult id (.block (s.getBlock bytes)))
      else .error .panic
  | _ => .ok (newJsonRpcError id 400 .invalidParams)

def getqueuedpow (id : Text) (c : Chain) : HttpResponse :=
  match c.queuedPow with
  | some pow => jsonRpcResult id (.queuedPow pow)
  | none => ⟨200, .json ⟨none, none, id⟩⟩

/-- A method that only reads. -/
def read (method : RpcMethod) (id : Text) (params : RpcParams) (c : Chain) :
    Except Failure HttpResponse :=
  match method with
  | .getdepositaddress => .ok (jsonRpcResult id (.address S.federationAddress))
  | .getheadblock => getheadblock id c.storage
  | .getblockbyheight => S.getblockbyheight id c.storage params
  | .getblockbyhash => getblockbyhash id c.storage params
  | .getqueuedpow => .ok (getqueuedpow id c)
  | _ => .ok (newJsonRpcError id 404 .methodNotFound)

/-- The body of `http_req_json_rpc` for a request with parameters. -/
def dispatch (method : RpcMethod) (id : Text) (params : RpcParams) :
    Action AuxPowMiner Failure HttpResponse :=
  match method with
  | .createauxblock => S.createauxblock P id params
  | .submitauxblock => S.submitauxblock P id params
  | method => do
    let m ← Action.get
    Action.lift (S.read method id params m.chain)

/-- `http_req_json_rpc`. -/
def httpReqJsonRpc (req : HttpRequest) : Action AuxPowMiner Failure HttpResponse :=
  if req.post then
    match req.body with
    | none => Action.fail (.error .genericError)
    | some request =>
      match request.params with
      | none => return newJsonRpcError request.id 200 .invalidRequest
      | some params => S.dispatch P request.method request.id params
  else return ⟨405, .text "JSONRPC server handles only POST requests".toList⟩

/-- The node after some requests. -/
def serve (requests : List HttpRequest) (m : AuxPowMiner) : AuxPowMiner :=
  requests.foldl (fun m req => (S.httpReqJsonRpc P req m).2) m

end RpcServer

namespace RpcServer

variable {P : Primitives} {S : RpcServer} {c : Chain} {requests : List HttpRequest}
  {m : AuxPowMiner}

/-! ## What clients can do -/

/-- A request asks for work in the name of an address. -/
def AsksFor (S : RpcServer) (address : Address) (req : HttpRequest) : Prop :=
  ∃ id params, req = ⟨true, some ⟨.createauxblock, some params, id⟩⟩ ∧
    S.minerAddress params = some address

/-- What requests leave of a node that had the chain `c` and an empty table: the chain but for the
queue and the signatures, in the queue a header that passes the check and pays an address that was
asked for, and in the table only such addresses and the block that contains the latest AuxPow. -/
structure Reached (P : Primitives) (S : RpcServer) (c : Chain) (requests : List HttpRequest)
    (m : AuxPowMiner) : Prop where
  chain : ∃ queuedPow collector,
    m.chain = { c with queuedPow, bitcoinSignatureCollector := collector }
  queue : ∀ pow, m.chain.queuedPow = some pow → c.queuedPow = some pow ∨
    checkPow P S.cfg.retargetParams c.storage pow false = .ok () ∧
      ∃ req ∈ requests, S.AsksFor pow.feeRecipient req
  table : ∀ hash info, m.state.lookup hash = some info →
    (∃ req ∈ requests, S.AsksFor info.address req) ∧
      ∃ indexLast, c.storage.getLastFinalizedBlock = .ok indexLast ∧
        info.lastHash = P.signingRoot indexLast

namespace Reached

section

variable (h : Reached P S c requests m)

include h

/-- A request that changes nothing. -/
lemma same (req : HttpRequest) :
    Reached P S c (requests ++ [req]) m := by
  have later : ∀ {address}, (∃ req ∈ requests, S.AsksFor address req) →
      ∃ req' ∈ requests ++ [req], S.AsksFor address req' :=
    fun ⟨r, mem, h⟩ => ⟨r, List.mem_append_left _ mem, h⟩
  refine ⟨h.chain, fun pow hpow => ?_,
    fun hash info hinfo => (h.table hash info hinfo).imp_left later⟩
  exact (h.queue pow hpow).imp_right fun ⟨hcheck, asked⟩ => ⟨hcheck, later asked⟩

/-- A request for work. -/
lemma create {req : HttpRequest} {address : Address} (asks : S.AsksFor address req) :
    Reached P S c (requests ++ [req]) (AuxPowMiner.createAuxBlock P S.cfg address m).2 := by
  have h := h.same req
  obtain ⟨_, _, e⟩ | ⟨_, hash, info, hbundle, e⟩ :=
    @AuxPowMiner.createAuxBlock_snd P S.cfg address m
  · rw [e]
    exact h
  · rw [e]
    refine ⟨h.chain, h.queue, fun hash' info' hinfo => ?_⟩
    rcases lookup_insert_eq_some.mp hinfo with ⟨_, rfl⟩ | ⟨_, hinfo⟩
    · obtain ⟨_, _, _, _, _, hlast, _, _, _, e⟩ :=
        AuxPowMiner.bundle_eq_ok_iff.mp hbundle
      cases e
      obtain ⟨_, _, hchain⟩ := h.chain
      rw [hchain] at hlast
      exact ⟨⟨req, List.mem_append_right _ (List.mem_singleton.mpr rfl), asks⟩, _, hlast, rfl⟩
    · exact h.table hash' info' hinfo

/-- The table without a bundle. -/
lemma erase (hash : BlockHash) :
    Reached P S c requests ⟨m.state.erase hash, m.chain⟩ :=
  ⟨h.chain, h.queue, fun hash' info hinfo => h.table hash' info (lookup_erase_eq_some.mp hinfo).2⟩

/-- A header is pushed that pays an address of the table. -/
lemma push {header : AuxPowHeader} (asked : ∃ req ∈ requests, S.AsksFor header.feeRecipient req) :
    Reached P S c requests ⟨m.state, (pushAuxpow P S.cfg S.signer header m.chain).2⟩ := by
  obtain ⟨queuedPow, collector, hchain⟩ := h.chain
  obtain ⟨⟨queuedPow', collector', hpush⟩, hqueue⟩ :=
    @pushAuxpow_snd P S.cfg S.signer header m.chain
  refine ⟨⟨queuedPow', collector', hpush.trans (by rw [hchain])⟩, fun pow hpow => ?_, h.table⟩
  rcases hqueue with e | ⟨e, hcheck⟩
  · exact h.queue pow (e.symm.trans hpow)
  · cases e.symm.trans hpow
    rw [hchain] at hcheck
    exact .inr ⟨hcheck, asked⟩

/-- A submission. -/
lemma submit {hash : BlockHash} {auxpow : AuxPow} :
    Reached P S c requests (AuxPowMiner.submitAuxBlock P S.cfg S.signer hash auxpow m).2 := by
  cases hinfo : m.state.lookup hash with
  | none =>
    have e : (AuxPowMiner.submitAuxBlock P S.cfg S.signer hash auxpow m).2 = m := by
      simp only [AuxPowMiner.submitAuxBlock, Action.bind_apply, Action.get_apply, hinfo]
      rfl
    rw [e]
    exact h
  | some info =>
    obtain ⟨_, _, e⟩ | ⟨header, c', hheader, hpush⟩ :=
      @AuxPowMiner.submitAuxBlock_cases P S.cfg S.signer hash auxpow info m hinfo
    · rw [e]
      exact h.erase hash
    · have asked : ∃ req ∈ requests, S.AsksFor header.feeRecipient req := by
        obtain ⟨_, _, _, _, _, _, _, _, _, _, rfl⟩ :=
          AuxPowMiner.solvedHeader_eq_ok_iff.mp hheader
        exact (h.table hash info hinfo).1
      have hpushed := (h.erase hash).push asked
      rcases hpush with ⟨_, hpush, e⟩ | ⟨_, hpush, e⟩
      · rw [e]
        rwa [hpush] at hpushed
      · rw [e]
        rwa [hpush] at hpushed

/-- Any request. -/
lemma request (req : HttpRequest) :
    Reached P S c (requests ++ [req]) (S.httpReqJsonRpc P req m).2 := by
  rw [httpReqJsonRpc]
  split
  case isFalse => exact h.same req
  case isTrue hpost =>
    obtain ⟨post, body⟩ := req
    cases hpost
    cases body with
    | none => exact h.same _
    | some request =>
      obtain ⟨method, params, id⟩ := request
      cases params with
      | none => exact h.same _
      | some params =>
        cases method with
        | createauxblock =>
          show Reached P S c _ (S.createauxblock P id params m).2
          rw [createauxblock]
          cases haddress : S.minerAddress params with
          | none => exact h.same _
          | some address => exact h.create ⟨id, params, rfl, haddress⟩
        | submitauxblock =>
          show Reached P S c _ (S.submitauxblock P id params m).2
          rw [submitauxblock]
          cases hargs : decodeSubmitauxblockArgs S.wire params with
          | error => exact h.same _
          | ok args =>
            obtain ⟨hash, auxpow⟩ := args
            show Reached P S c _ ((AuxPowMiner.submitAuxBlock P S.cfg S.signer hash auxpow >>=
              fun _ => pure (jsonRpcResult id .null) : Action AuxPowMiner Failure HttpResponse) m).2
            rw [Action.bind_pure_snd]
            exact (h.same _).submit
        | _ => exact h.same _

end

end Reached

/-- The server after some requests, from an empty table. -/
lemma reached_serve (hm : m.state = ∅) (requests : List HttpRequest) :
    Reached P S m.chain requests (S.serve P requests m) := by
  induction requests using List.reverseRecOn with
  | nil =>
    refine ⟨⟨_, _, rfl⟩, fun _ => .inl, fun hash info hinfo => ?_⟩
    rw [show S.serve P [] m = m from rfl, hm, Finmap.lookup_empty] at hinfo
    cases hinfo
  | append_singleton requests req ih =>
    rw [serve, List.foldl_append]
    exact ih.request req

/-- Whatever clients ask a server whose table is empty, the chain stays as it is but for the queued
AuxPow and the collected signatures, and a header that they get into the queue passes the check on
the chain and pays an address in whose name work was asked for. -/
theorem requests_keep_chain (hm : m.state = ∅) (requests : List HttpRequest) :
    (∃ queuedPow collector, (S.serve P requests m).chain =
      { m.chain with queuedPow, bitcoinSignatureCollector := collector }) ∧
    ∀ pow, (S.serve P requests m).chain.queuedPow = some pow →
      m.chain.queuedPow = some pow ∨
        checkPow P S.cfg.retargetParams m.chain.storage pow false = .ok () ∧
          ∃ req ∈ requests, S.AsksFor pow.feeRecipient req :=
  ⟨(reached_serve hm requests).chain, (reached_serve hm requests).queue⟩

end RpcServer

/-- Library functions for closed examples in which the hash of a transaction has 32 bytes. -/
def Primitives.toyMiner : Primitives := { Primitives.toy with txid _ := List.replicate 32 0 }

/-- The proof that `mine` tries first for the hash of every bundle. -/
def AuxPow.toyAttempt : AuxPow := .attempt .toyMiner (List.replicate 32 0) 0

/-- A block that finalizes its parent with that proof, for the chain id 2. -/
def SignedConsensusBlock.toySolved : SignedConsensusBlock where
  message :=
    { (SignedConsensusBlock.toy 2 0).message with
      auxpowHeader :=
        some { AuxPowHeader.toy (toyRoot 1 0) with chainId := 2, auxpow := some .toyAttempt } }
  signature := (SignedConsensusBlock.toyPow 2).signature

/-- A validator that has imported a block and one that finalizes it. -/
def Chain.toySolved : Chain :=
  (Reorg.accept .toy .toySolved).apply .toyMiner (.toy 1 0)
    ((Reorg.accept .toy (.toy 1 0)).apply .toyMiner (.toy 1 0) Chain.toyCached)

namespace RpcServer

/-- An address of twenty bytes in hexadecimal. -/
def readAddress : Text → Option Address
  | '0' :: 'x' :: digits => (decodeHex digits).filter (·.length = 20)
  | _ => none

/-- A server for closed examples. -/
def toy : RpcServer := ⟨.toy 1 0, none, [], .bitcoin, readAddress, fun _ => []⟩

/-- A request for work in the name of an address. -/
def toyAsks (address : Address) : HttpRequest :=
  ⟨true, some ⟨.createauxblock, some (.texts ['0' :: 'x' :: encodeHex address]), []⟩⟩

/-- Work is asked for and solved. -/
theorem requests_keep_chain_solved :
    let m : AuxPowMiner := ⟨∅, Chain.toySolved⟩
    let submits : HttpRequest := ⟨true, some ⟨.submitauxblock, some (.texts
      [blockHashToConsensusHex .bitcoin (List.replicate 32 0),
        encodeHex (AuxPow.toyAttempt.consensusEncode .bitcoin)]), []⟩⟩
    let requests : List HttpRequest := [toyAsks (List.replicate 20 9), submits]
    (toy.serve .toyMiner requests m).chain.queuedPow.map (·.feeRecipient) =
        some (List.replicate 20 9) ∧
      (∃ queuedPow collector, (toy.serve .toyMiner requests m).chain =
        { m.chain with queuedPow, bitcoinSignatureCollector := collector }) ∧
      ∀ pow, (toy.serve .toyMiner requests m).chain.queuedPow = some pow →
        m.chain.queuedPow = some pow ∨
          checkPow .toyMiner toy.cfg.retargetParams m.chain.storage pow false = .ok () ∧
            ∃ req ∈ requests, toy.AsksFor pow.feeRecipient req := by
  intro m submits requests
  exact ⟨by decide +kernel, requests_keep_chain rfl requests⟩

/-! ## What ends the node -/

/-- The node panics or hangs. -/
def Crashes {α : Type} (r : Except Failure α) : Prop := r = .error .panic ∨ r = .error .diverge

/-- A failure is the same for a value of another type. -/
lemma Crashes.error {α β : Type} {f : Failure} (h : Crashes (.error f : Except Failure α)) :
    Crashes (.error f : Except Failure β) := by
  rcases h with h | h
  · cases h
    exact .inl rfl
  · cases h
    exact .inr rfl

lemma Crashes.of_bind {α β : Type} {x : Except Failure α} {f : α → Except Failure β}
    (h : Crashes (x >>= f)) : Crashes x ∨ ∃ a, x = .ok a ∧ Crashes (f a) := by
  cases x with
  | ok a => exact .inr ⟨a, rfl, h⟩
  | error e => exact .inl h.error

lemma not_crashes_ok {α : Type} {a : α} : ¬ Crashes (.ok a : Except Failure α) := by
  rintro (h | h)
  · cases h
  · cases h

lemma not_crashes_error {α : Type} {e : Error} :
    ¬ Crashes (.error (.error e) : Except Failure α) := by
  rintro (h | h)
  · cases h
  · cases h

lemma not_crashes_okOr {α : Type} {o : Option α} {e : Error} : ¬ Crashes (okOr o (.error e)) := by
  cases o with
  | none => exact not_crashes_error
  | some => exact not_crashes_ok

/-- A request for a block by a text that does not have 64 digits. -/
def MeasuresWrong (req : HttpRequest) : Prop :=
  ∃ id text bytes, req = ⟨true, some ⟨.getblockbyhash, some (.text text), id⟩⟩ ∧
    decodeHex text = some bytes ∧ bytes.length ≠ 32

/-- A request submits a proof that meets the target which the chain requires next. -/
def SubmitsWork (P : Primitives) (S : RpcServer) (s : Storage) (req : HttpRequest) : Prop :=
  ∃ id params hash auxpow indexLast bits,
    req = ⟨true, some ⟨.submitauxblock, some params, id⟩⟩ ∧
    decodeSubmitauxblockArgs S.wire params = .ok (hash, auxpow) ∧
    s.getLastFinalizedBlock = .ok indexLast ∧
    s.nextWorkRequired S.cfg.retargetParams indexLast = .ok bits ∧
    auxpow.checkProofOfWork P bits = true

end RpcServer

/-- On a single chain the latest AuxPow is found and there is a next target. -/
lemma SingleChain.work {P : Primitives} {s : Storage} {head : Option BlockRef}
    {chain : List SignedConsensusBlock} {params : BitcoinConsensusParams}
    (h : SingleChain P s head chain) (usable : params.Usable) (small : chain.length < 2 ^ 64) :
    ∃ p bits chainId, LatestPow P s chain p ∧ s.getLastFinalizedBlock = .ok p.message ∧
      s.getBlockByHash (P.signingRoot p.message) = .ok p.message ∧
      s.nextWorkRequired params p.message = .ok bits ∧ p.message.chainId = .ok chainId ∧
      p.number + 1 < 2 ^ 64 := by
  have L := h.linear
  obtain ⟨p, hp⟩ := h.latestPow
  have hget : s.getBlock (p.canonicalRoot P) = some p := L.getBlock hp.mem
  obtain ⟨lt, _⟩ := List.getElem?_eq_some_iff.mp (L.getElem? hp.mem)
  have hlast : chain.getLast? = some (chain.getLast h.nonempty) :=
    List.getLast?_eq_some_getLast h.nonempty
  have hnumber : (chain.getLast h.nonempty).number = chain.length - 1 := by
    rw [List.getLast?_eq_getElem?] at hlast
    exact L.number hlast
  have hhead : s.getHead = .ok (chain.getLast h.nonempty) := by
    have href : s.head = some ((chain.getLast h.nonempty).blockRef P) := by
      rw [L.head, hlast, Option.map_some]
    have hget := L.getBlock (List.getLast_mem h.nonempty)
    simp only [Storage.getHead, href, okOr, bind, Except.bind, SignedConsensusBlock.blockRef, hget]
  obtain ⟨bits, hbits⟩ := @getNextWorkRequired_total params p.message
    (chain.getLast h.nonempty).number usable hp.header
    (by rw [hnumber]; exact Nat.le_sub_one_of_lt lt) (by omega)
  obtain ⟨header, hheader⟩ := Option.isSome_iff_exists.mp hp.header
  refine ⟨p, bits, header.chainId, hp, ?_, ?_, ?_, ?_, by omega⟩
  · simp only [Storage.getLastFinalizedBlock, hp.ref, okOr, bind, Except.bind,
      SignedConsensusBlock.blockRef, hget]
    rfl
  · have hget : s.getBlock (P.signingRoot p.message) = some p := hget
    simp only [Storage.getBlockByHash, hget, okOr, bind, Except.bind]
    rfl
  · simp only [Storage.nextWorkRequired, hhead, bind, Except.bind]
    exact hbits
  · rw [ConsensusBlock.chainId, hheader]

namespace RpcServer

variable {P : Primitives} {S : RpcServer} {m : AuxPowMiner} {chain : List SignedConsensusBlock}

/-- Bundling the blocks does not end the node. -/
lemma bundle_not_crashes {c : Chain} {indexLast : ConsensusBlock} {address : Address}
    (hlast : c.storage.getLastFinalizedBlock = .ok indexLast) :
    ¬ Crashes (AuxPowMiner.bundle P c address) := by
  have hhashes : ¬ Crashes c.getAggregateHashes := by
    rw [Chain.getAggregateHashes]
    intro h
    rcases h.of_bind with h | ⟨head, _, h⟩
    · exact not_crashes_okOr h
    · split at h
      · exact not_crashes_ok h
      · exact not_crashes_error h
  rw [AuxPowMiner.bundle]
  cases c.syncStatus.isSynced with
  | false => exact not_crashes_error
  | true =>
    intro h
    rcases h.of_bind with h | ⟨_, _, h⟩
    · rw [hlast] at h
      exact not_crashes_ok h
    · rcases h.of_bind with h | ⟨hashes, _, h⟩
      · exact hhashes h
      · rcases h.of_bind with h | ⟨start, _, h⟩
        · exact not_crashes_okOr h
        · rcases h.of_bind with h | ⟨stop, _, h⟩
          · exact not_crashes_okOr h
          · exact not_crashes_ok h

/-- `createauxblock` does not end the node. -/
lemma createAuxBlock_not_crashes (single : SingleChain P m.chain.storage m.chain.head chain)
    (usable : S.cfg.retargetParams.Usable) (small : chain.length < 2 ^ 64) (address : Address) :
    ¬ Crashes (AuxPowMiner.createAuxBlock P S.cfg address m).1 := by
  obtain ⟨p, bits, chainId, _, hlast, _, hbits, hid, hsmall⟩ := single.work usable small
  have hheight : checkedU64 (p.message.executionPayload.blockNumber + 1) =
      (.ok (p.message.executionPayload.blockNumber + 1) : Except Failure Nat) :=
    checkedU64_of_lt hsmall
  simp only [AuxPowMiner.createAuxBlock, Action.bind_apply, Action.get_apply, Action.lift_apply]
  rcases hbundle : AuxPowMiner.bundle P m.chain address with f | ⟨indexLast, hash, info⟩
  · have hne : ¬ Crashes (AuxPowMiner.bundle P m.chain address) := bundle_not_crashes hlast
    rw [hbundle] at hne
    exact fun h => hne h.error
  · obtain ⟨_, _, _, _, _, hlast', _, _, _, e⟩ := AuxPowMiner.bundle_eq_ok_iff.mp hbundle
    cases hlast.symm.trans hlast'
    cases e
    simp only [Action.modify_apply, hbits, hid, hheight]
    exact not_crashes_ok

/-- Without enough work a submission for the latest AuxPow is an error. -/
lemma submitAuxBlock_crashes {c : Chain} {requests : List HttpRequest} {hash : BlockHash}
    {auxpow : AuxPow} (reached : Reached P S c requests m)
    (single : SingleChain P c.storage c.head chain) (usable : S.cfg.retargetParams.Usable)
    (small : chain.length < 2 ^ 64)
    (h : Crashes (AuxPowMiner.submitAuxBlock P S.cfg S.signer hash auxpow m).1) :
    ∃ indexLast bits, c.storage.getLastFinalizedBlock = .ok indexLast ∧
      c.storage.nextWorkRequired S.cfg.retargetParams indexLast = .ok bits ∧
      auxpow.checkProofOfWork P bits = true := by
  obtain ⟨_, _, hchain⟩ := reached.chain
  have hstorage : m.chain.storage = c.storage := by rw [hchain]
  obtain ⟨p, bits, chainId, _, hlast, hget, hbits, hid, _⟩ := single.work usable small
  cases hinfo : m.state.lookup hash with
  | none =>
    have e : (AuxPowMiner.submitAuxBlock P S.cfg S.signer hash auxpow m).1 =
        .error (.error .genericError) := by
      simp only [AuxPowMiner.submitAuxBlock, Action.bind_apply, Action.get_apply, hinfo]
      rfl
    rw [e] at h
    exact absurd h not_crashes_error
  | some info =>
    obtain ⟨_, indexLast, hindex, hhash⟩ := reached.table hash info hinfo
    cases hlast.symm.trans hindex
    refine ⟨p.message, bits, hlast, hbits, ?_⟩
    obtain ⟨f, hheader, e⟩ | ⟨header, _, hheader, _⟩ :=
      @AuxPowMiner.submitAuxBlock_cases P S.cfg S.signer hash auxpow info m hinfo
    · rw [hstorage, AuxPowMiner.solvedHeader, hhash, hget] at hheader
      simp only [bind, Except.bind, hbits, hid] at hheader
      split at hheader
      case isTrue hmet => exact hmet
      case isFalse =>
        cases hheader
        rw [e] at h
        exact absurd h not_crashes_error
    · obtain ⟨_, bits', _, _, hget', hbits', _, hmet, _⟩ :=
        AuxPowMiner.solvedHeader_eq_ok_iff.mp hheader
      rw [hstorage, hhash, hget] at hget'
      cases hget'
      rw [hstorage, hbits] at hbits'
      cases hbits'
      exact hmet

lemma onCreated_crashes {id : Text} {r : Except Failure AuxBlock} (h : Crashes (S.onCreated id r)) :
    Crashes r := by
  cases r with
  | ok => exact absurd h not_crashes_ok
  | error f =>
    cases f with
    | error => exact absurd h not_crashes_ok
    | panic => exact .inl rfl
    | diverge => exact .inr rfl

lemma createauxblock_not_crashes (single : SingleChain P m.chain.storage m.chain.head chain)
    (usable : S.cfg.retargetParams.Usable) (small : chain.length < 2 ^ 64) (id : Text)
    (params : RpcParams) : ¬ Crashes (S.createauxblock P id params m).1 := by
  rw [createauxblock]
  cases S.minerAddress params with
  | none => exact not_crashes_ok
  | some address =>
    exact fun h => createAuxBlock_not_crashes single usable small address (onCreated_crashes h)

/-- A submission ends the node only if the miner does. -/
lemma submitauxblock_crashes {id : Text} {params : RpcParams}
    (h : Crashes (S.submitauxblock P id params m).1) :
    ∃ hash auxpow, decodeSubmitauxblockArgs S.wire params = .ok (hash, auxpow) ∧
      Crashes (AuxPowMiner.submitAuxBlock P S.cfg S.signer hash auxpow m).1 := by
  rw [submitauxblock] at h
  cases hargs : decodeSubmitauxblockArgs S.wire params with
  | error =>
    rw [hargs] at h
    exact absurd h not_crashes_ok
  | ok args =>
    rw [hargs] at h
    refine ⟨args.1, args.2, rfl, ?_⟩
    change Crashes ((AuxPowMiner.submitAuxBlock P S.cfg S.signer args.1 args.2 >>=
      fun _ => pure (jsonRpcResult id .null) : Action AuxPowMiner Failure HttpResponse) m).1 at h
    rw [Action.bind_apply] at h
    rcases hr : AuxPowMiner.submitAuxBlock P S.cfg S.signer args.1 args.2 m with ⟨f | _, _⟩
    · rw [hr] at h
      exact h.error
    · rw [hr] at h
      exact absurd h not_crashes_ok

lemma getheadblock_not_crashes (id : Text) (s : Storage) : ¬ Crashes (getheadblock id s) := by
  have hhead : ¬ Crashes s.getHead := by
    intro h
    rcases h.of_bind with h | ⟨_, _, h⟩
    · exact not_crashes_okOr h
    · exact not_crashes_okOr h
  rw [getheadblock]
  cases e : s.getHead with
  | ok => exact not_crashes_ok
  | error f =>
    rw [e] at hhead
    cases f with
    | error => exact not_crashes_ok
    | panic => exact absurd (.inl rfl) hhead
    | diverge => exact absurd (.inr rfl) hhead

lemma getblockbyheight_not_crashes (id : Text) (s : Storage) (params : RpcParams) :
    ¬ Crashes (S.getblockbyheight id s params) := by
  cases params with
  | number n =>
    rw [getblockbyheight]
    split
    case isTrue => exact not_crashes_ok
    case isFalse => exact not_crashes_ok
  | _ => exact not_crashes_ok

lemma getblockbyhash_crashes {id : Text} {s : Storage} {params : RpcParams}
    (h : Crashes (getblockbyhash id s params)) :
    ∃ text bytes, params = .text text ∧ decodeHex text = some bytes ∧ bytes.length ≠ 32 := by
  cases params with
  | text text =>
    rw [getblockbyhash] at h
    cases hbytes : decodeHex text with
    | none =>
      rw [hbytes] at h
      exact absurd h not_crashes_error
    | some bytes =>
      refine ⟨text, bytes, rfl, hbytes, fun hlength => ?_⟩
      simp only [hbytes, if_pos hlength] at h
      exact absurd h not_crashes_ok
  | _ => exact absurd h not_crashes_ok

/-- On a node whose store holds a single chain, with usable parameters and whatever was asked
before, two kinds of requests end the node at most: those for a block by a text of a wrong length,
which always do, and submissions of a proof that meets the required target. -/
theorem request_crashes (hm : m.state = ∅)
    (single : SingleChain P m.chain.storage m.chain.head chain)
    (usable : S.cfg.retargetParams.Usable) (small : chain.length < 2 ^ 64)
    (requests : List HttpRequest) (req : HttpRequest) :
    (MeasuresWrong req → Crashes (S.httpReqJsonRpc P req (S.serve P requests m)).1) ∧
      (Crashes (S.httpReqJsonRpc P req (S.serve P requests m)).1 →
        MeasuresWrong req ∨ SubmitsWork P S m.chain.storage req) := by
  have reached := @reached_serve P S m hm requests
  generalize S.serve P requests m = m' at reached ⊢
  obtain ⟨_, _, hchain⟩ := reached.chain
  constructor
  · rintro ⟨id, text, bytes, rfl, hbytes, hlength⟩
    refine .inl ?_
    show getblockbyhash id m'.chain.storage (.text text) = _
    rw [getblockbyhash, hbytes]
    exact if_neg hlength
  · intro h
    obtain ⟨post, body⟩ := req
    cases post with
    | false => exact absurd h not_crashes_ok
    | true =>
      cases body with
      | none => exact absurd h not_crashes_error
      | some request =>
        obtain ⟨method, params, id⟩ := request
        cases params with
        | none => exact absurd h not_crashes_ok
        | some params =>
          cases method with
          | createauxblock =>
            have single' : SingleChain P m'.chain.storage m'.chain.head chain := by
              rw [hchain]
              exact single
            exact absurd h (createauxblock_not_crashes single' usable small id params)
          | submitauxblock =>
            obtain ⟨hash, auxpow, hargs, h⟩ := submitauxblock_crashes h
            obtain ⟨indexLast, bits, hlast, hbits, hmet⟩ :=
              submitAuxBlock_crashes reached single usable small h
            exact .inr ⟨id, params, hash, auxpow, indexLast, bits, rfl, hargs, hlast, hbits, hmet⟩
          | getdepositaddress => exact absurd h not_crashes_ok
          | getheadblock => exact absurd h (getheadblock_not_crashes id _)
          | getblockbyheight => exact absurd h (getblockbyheight_not_crashes id _ params)
          | getblockbyhash =>
            obtain ⟨text, bytes, rfl, hbytes, hlength⟩ := getblockbyhash_crashes h
            exact .inl ⟨id, text, bytes, rfl, hbytes, hlength⟩
          | getqueuedpow => exact absurd h not_crashes_ok
          | unknown => exact absurd h not_crashes_ok

/-- A request for the block with the hash `00` ends a node that has just stored its genesis block.
-/
theorem request_crashes_short_hash :
    Crashes (toy.httpReqJsonRpc .toy
      ⟨true, some ⟨.getblockbyhash, some (.text ['0', '0']), []⟩⟩
      (toy.serve .toy [] ⟨∅, Chain.toyGenesis⟩)).1 := by
  obtain ⟨g, fees, _, hg, _, _, _, e⟩ := storeGenesis_ok Chain.toyGenesis_eq
  have single : SingleChain .toy Chain.toyGenesis.storage Chain.toyGenesis.head [g] := by
    rw [e]
    exact .ofGenesis Primitives.toy_rootsSound hg fees
  have usable : (ChainConfig.toy 1 0).retargetParams.Usable := ⟨by decide, by decide, by decide⟩
  refine (@request_crashes .toy toy ⟨∅, Chain.toyGenesis⟩ [g] rfl single usable
    (show 1 < 2 ^ 64 by decide) [] _).1 ⟨[], ['0', '0'], [0], rfl, by decide, by decide⟩

end RpcServer

end Alys
