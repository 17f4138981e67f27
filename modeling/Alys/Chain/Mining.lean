import Alys.Chain.Difficulty
import Alys.Chain.Gossip
import Alys.Chain.Server
import Alys.Pow.Mine

/-!
# Merged mining from end to end

Model of `try_mine` in `crates/miner/src/main.rs`, which asks the server for work, searches for a
proof and submits it; what it does with the answer to that is left out. Between the request and the
submission other clients may ask for work and the node may import blocks. As long as these contain
no AuxPow and nobody else submits, the node queues the proof, if it meets the target that is
required by then (`mined_work_queued`). The range is that of the bundle which the table has by then.

The server keeps one bundle for each hash. So the reward goes to the client who asked last for the
same work, whoever found the proof.

`log` is not part of the node: it records for whom which work was handed out.
-/

namespace Alys
open Lib

/-! ## The miner -/

/-- The request by which the miner submits a proof. -/
def submission (L : WireCodecs) (id : Text) (hash : BlockHash) (auxpow : AuxPow) : HttpRequest where
  post := true
  body := some
    { method := .submitauxblock
      params := some
        (.texts [blockHashToConsensusHex L hash, encodeHex (auxpow.consensusEncode L)])
      id }

/-- `try_mine` from the answer to `createauxblock` to the second request. -/
def tryMine (P : Primitives) (L : WireCodecs) (id : Text) (answer : AuxBlockJson) :
    Except Failure HttpRequest := do
  let auxBlock ← okOr (AuxBlock.deserialize L answer) (.error .genericError)
  let auxpow ← AuxPow.mine P auxBlock.hash auxBlock.bits auxBlock.chainId
  return submission L id auxBlock.hash auxpow

section Wire

variable {P : Primitives} {L : WireCodecs}

lemma blockHashFromConsensusHex_toConsensusHex (hL : L.Lawful) {hash : BlockHash}
    (hhash : hash.length = 32) :
    blockHashFromConsensusHex L (blockHashToConsensusHex L hash) = some hash := by
  have hdecode := hL.hash.decode_encode [] ((hL.hash_valid hash).mpr hhash)
  rw [List.append_nil] at hdecode
  simp only [blockHashFromConsensusHex, blockHashToConsensusHex, decodeHex_encodeHex,
    Option.bind_eq_bind, Option.bind_some, hdecode]
  rfl

/-- What a client reads of an answer is what the server wrote. -/
lemma deserialize_serialize (hL : L.Lawful) {block work : AuxBlock}
    (hhash : block.hash.length = 32) (hbits : block.bits < 2 ^ 32)
    (e : AuxBlock.deserialize L (block.serialize L) = some work) :
    work.hash = block.hash ∧ work.bits = block.bits ∧ work.chainId = block.chainId := by
  have hdigits : compactTargetFromHex (compactTargetToHex block.bits) = some block.bits :=
    parseNumeral_toDigits (by decide) le_rfl (Nat.le_sub_one_of_lt hbits)
  simp only [AuxBlock.deserialize, AuxBlock.serialize, hdigits,
    blockHashFromConsensusHex_toConsensusHex hL hhash, Option.bind_eq_bind, Option.bind_some,
    Option.bind_eq_some_iff] at e
  obtain ⟨_, _, e⟩ := e
  cases e
  exact ⟨rfl, rfl, rfl⟩

/-- The server reads what the miner submits. -/
lemma decodeSubmitauxblockArgs_submission (hL : L.Lawful)
    (hraw : ∀ hash, L.hash.encode hash = hash) {hash : BlockHash} {auxpow : AuxPow}
    (hhash : hash.length = 32) (fits : auxpow.Fits L)
    (small : (auxpow.consensusEncode L).length ≤ maxVecSize) :
    decodeSubmitauxblockArgs L
      (.texts [blockHashToConsensusHex L hash, encodeHex (auxpow.consensusEncode L)]) =
      .ok (hash, auxpow) := by
  have hdecode := AuxPow.consensusDecode_encode hL fits small []
  rw [List.append_nil] at hdecode
  simp only [decodeSubmitauxblockArgs, blockHashToConsensusHex, hraw, decodeHex_encodeHex,
    RpcCause.okOr, bind, Except.bind, if_neg (not_not.mpr hhash), hdecode]
  rfl

lemma tryMine_eq_ok_iff {id : Text} {answer : AuxBlockJson} {req : HttpRequest} :
    tryMine P L id answer = .ok req ↔ ∃ work auxpow,
      AuxBlock.deserialize L answer = some work ∧
      AuxPow.mine P work.hash work.bits work.chainId = .ok auxpow ∧
      req = submission L id work.hash auxpow := by
  simp only [tryMine, bind_eq_ok_iff, okOr_eq_ok_iff]
  constructor
  · rintro ⟨work, hwork, auxpow, hmine, e⟩
    cases e
    exact ⟨work, auxpow, hwork, hmine, rfl⟩
  · rintro ⟨work, auxpow, hwork, hmine, rfl⟩
    exact ⟨work, hwork, auxpow, hmine, rfl⟩

end Wire

/-! ## The system -/

/-- A node with its server, and the work that was handed out. -/
structure MiningNode where
  miner : AuxPowMiner
  /-- the latest last -/
  log : List (BlockHash × Address)

inductive MiningEvent where
  | rpc (req : HttpRequest)
  /-- the node imports a block -/
  | accept (env : Env) (b : SignedConsensusBlock)

/-- The bundle that a request writes to the table. -/
def HttpRequest.handsOut (P : Primitives) (S : RpcServer) (c : Chain) (req : HttpRequest) :
    List (BlockHash × Address) :=
  match req with
  | ⟨true, some ⟨.createauxblock, some params, _⟩⟩ =>
    match S.minerAddress params with
    | none => []
    | some address =>
      match AuxPowMiner.bundle P c address with
      | .ok (_, hash, _) => [(hash, address)]
      | .error _ => []
  | _ => []

namespace MiningNode

variable (P : Primitives) (S : RpcServer)

def step : MiningEvent → MiningNode → MiningNode
  | .rpc req, s =>
    { miner := (S.httpReqJsonRpc P req s.miner).2
      log := s.log ++ req.handsOut P S s.miner.chain }
  | .accept env b, s =>
    { s with miner.chain := (Reorg.accept env b).apply P S.cfg s.miner.chain }

/-- Nobody submits, and no block with an AuxPow is imported. -/
def Quiet (s : MiningNode) : MiningEvent → Prop
  | .rpc req => ∀ request, req.body = some request → request.method ≠ .submitauxblock
  | .accept env b => Followed P s.miner.chain env b ∧ b.message.auxpowHeader = none

end MiningNode

/-! ## Work that was handed out -/

/-- The chain of the node: `f` is the block finalized last and `p` contains the latest AuxPow. -/
structure Working (P : Primitives) (chain : List SignedConsensusBlock)
    (f p : SignedConsensusBlock) (c : Chain) : Prop where
  cached : Cached P c chain
  mined : Mined chain
  mem : f ∈ chain
  final : c.storage.getLatestFinalizedBlockRef P = .ok (some (f.blockRef P))
  latest : LatestPow P c.storage chain p

/-- A bundle for a hash: it names the block with the latest AuxPow and a range that starts after the
block finalized last. -/
structure Bundled (P : Primitives) (chain : List SignedConsensusBlock)
    (f p : SignedConsensusBlock) (hash : BlockHash) (info : AuxInfo) : Prop where
  last : info.lastHash = P.signingRoot p.message
  range : ∃ start stop, chain[f.number + 1]? = some start ∧ stop ∈ chain ∧
    f.number < stop.number ∧ info.startHash = start.canonicalRoot P ∧
    info.endHash = stop.canonicalRoot P ∧
    hash = AuxPow.aggregateHash P
      ((segment chain (f.number + 1) stop.number).map (·.canonicalRoot P))

namespace Working

variable {P : Primitives} {S : RpcServer} {chain : List SignedConsensusBlock}
  {f p b : SignedConsensusBlock} {c : Chain}

section

variable (h : Working P chain f p c)

include h

/-- What the cache holds. -/
lemma hashes :
    c.blockHashCache = (chain.drop (f.number + 1)).map (·.canonicalRoot P) ∧
      f.number + 1 < chain.length := by
  obtain ⟨f', hf', hfin, k, hhashes, ⟨_, rfl, lt⟩ | ⟨hmined, _⟩⟩ := h.cached.window
  · have e : f'.blockRef P = f.blockRef P :=
      Option.some.inj (Except.ok.inj (hfin.symm.trans h.final))
    have hnumber : f'.number = f.number := congrArg BlockRef.height e
    rw [hnumber] at hhashes lt
    exact ⟨hhashes, lt⟩
  · exact absurd h.mined hmined

/-- An import without an AuxPow is rejected or appends the block. -/
lemma accept (hP : RootsSound P) {cfg : ChainConfig} {env : Env} (followed : Followed P c env b)
    (hpow : b.message.auxpowHeader = none) :
    Working P chain f p ((Reorg.accept env b).apply P cfg c) ∨
      Working P (chain ++ [b]) f p ((Reorg.accept env b).apply P cfg c) := by
  have L := h.cached.single.linear
  obtain ⟨hqueue, ⟨hs, hh, hc⟩ | ⟨fees, hs, hh, hc⟩⟩ :=
    @acceptBlock_updated P cfg env b c followed.commits h.cached.queue
  · refine .inl ⟨⟨?_, hqueue, ?_⟩, h.mined, h.mem, ?_, ?_⟩
    · simp only [Reorg.apply, hs, hh]
      exact h.cached.single
    · simp only [Reorg.apply, hs, hc]
      exact h.cached.window
    · simp only [Reorg.apply, hs]
      exact h.final
    · simp only [Reorg.apply, hs]
      exact h.latest
  · have cached : Cached P ((Reorg.accept env b).apply P cfg c) (chain ++ [b]) :=
      h.cached.extend hP followed hqueue hs hh hc
    obtain ⟨b', mem', hb'⟩ := h.mined
    refine .inr ⟨cached, ⟨b', List.mem_append_left _ mem', hb'⟩, List.mem_append_left _ h.mem,
      ?_, ?_⟩
    · simp only [Reorg.apply, hs]
      exact L.finalized_extend hP followed.extendsHead hpow h.final
    · obtain ⟨_, _, _, hn⟩ := L.extendsHead followed.extendsHead
      obtain ⟨lt, _⟩ := List.getElem?_eq_some_iff.mp (L.getElem? h.latest.mem)
      have latest := h.latest.extend (b := b) (by omega) fees
      rw [hpow, Option.isSome_none, if_neg Bool.false_ne_true] at latest
      simp only [Reorg.apply, hs]
      exact latest

lemma getLastFinalizedBlock :
    c.storage.getLastFinalizedBlock = .ok p.message := by
  have hget : c.storage.getBlock (p.canonicalRoot P) = some p :=
    h.cached.single.linear.getBlock h.latest.mem
  simp only [Storage.getLastFinalizedBlock, h.latest.ref, okOr, bind, Except.bind,
    SignedConsensusBlock.blockRef, hget]
  rfl

lemma getAggregateHashes :
    c.getAggregateHashes = .ok c.blockHashCache := by
  obtain ⟨last, _, hhead, _⟩ := h.cached.last
  simp only [Chain.getAggregateHashes, hhead, h.cached.queue]
  rfl

/-- The work that is handed out. -/
lemma bundle {address : Address} {indexLast : ConsensusBlock} {hash : BlockHash} {info : AuxInfo}
    (e : AuxPowMiner.bundle P c address = .ok (indexLast, hash, info)) :
    indexLast = p.message ∧ info.address = address ∧ Bundled P chain f p hash info := by
  have L := h.cached.single.linear
  have hne := h.cached.single.nonempty
  obtain ⟨hcache, lt⟩ := h.hashes
  obtain ⟨_, _, hashes, start, stop, hlast, hhashes, hstart, hstop, e⟩ :=
    AuxPowMiner.bundle_eq_ok_iff.mp e
  cases e
  cases h.getLastFinalizedBlock.symm.trans hlast
  cases h.getAggregateHashes.symm.trans hhashes
  rw [hcache, List.head?_map, List.head?_drop] at hstart
  obtain ⟨first, hfirst, rfl⟩ := Option.map_eq_some_iff.mp hstart
  have hend : chain.getLast? = some (chain.getLast hne) := List.getLast?_eq_some_getLast hne
  have hnumber : (chain.getLast hne).number = chain.length - 1 := by
    rw [List.getLast?_eq_getElem?] at hend
    exact L.number hend
  rw [hcache, List.getLast?_map, List.getLast?_drop, if_neg (by omega), hend] at hstop
  cases hstop
  refine ⟨rfl, rfl, rfl, first, chain.getLast hne, hfirst, List.getLast_mem hne, by omega, rfl, rfl,
    ?_⟩
  rw [hnumber, segment_to_end hne, hcache]

end

end Working

/-- A bundle stays one when the chain grows. -/
lemma Bundled.append {P : Primitives} {s : Storage} {chain : List SignedConsensusBlock}
    {f p b : SignedConsensusBlock} {hash : BlockHash} {info : AuxInfo} (L : s.Linear P chain)
    (h : Bundled P chain f p hash info) : Bundled P (chain ++ [b]) f p hash info := by
  obtain ⟨start, stop, hstart, hstop, lt, hfirst, hend, e⟩ := h.range
  obtain ⟨hlen, _⟩ := List.getElem?_eq_some_iff.mp (L.getElem? hstop)
  obtain ⟨hlen', _⟩ := List.getElem?_eq_some_iff.mp hstart
  refine ⟨h.last, start, stop, ?_, List.mem_append_left _ hstop, lt, hfirst, hend, ?_⟩
  · rw [List.getElem?_append_left hlen', hstart]
  · rw [segment_append hlen, e]

namespace MiningNode

variable {P : Primitives} {S : RpcServer} {chain : List SignedConsensusBlock}
  {f p : SignedConsensusBlock} {hash : BlockHash} {s : MiningNode}

/-- What a request does that is not a submission. -/
lemma rpc_cases {req : HttpRequest} (m : AuxPowMiner)
    (h : ∀ request, req.body = some request → request.method ≠ .submitauxblock) :
    (S.httpReqJsonRpc P req m).2 = m ∧ req.handsOut P S m.chain = [] ∨
      ∃ address indexLast hash info,
        AuxPowMiner.bundle P m.chain address = .ok (indexLast, hash, info) ∧
        (S.httpReqJsonRpc P req m).2 = { m with state := m.state.insert hash info } ∧
        req.handsOut P S m.chain = [(hash, address)] := by
  obtain ⟨post, body⟩ := req
  cases post with
  | false => exact .inl ⟨rfl, rfl⟩
  | true =>
    cases body with
    | none => exact .inl ⟨rfl, rfl⟩
    | some request =>
      obtain ⟨method, params, id⟩ := request
      cases params with
      | none =>
        cases method with
        | _ => exact .inl ⟨rfl, rfl⟩
      | some params =>
        cases method with
        | createauxblock =>
          show (S.createauxblock P id params m).2 = m ∧ _ ∨ ∃ address indexLast hash info,
            _ ∧ (S.createauxblock P id params m).2 = _ ∧ _
          rw [RpcServer.createauxblock, HttpRequest.handsOut]
          cases S.minerAddress params with
          | none => exact .inl ⟨rfl, rfl⟩
          | some address =>
            obtain ⟨_, hbundle, e⟩ | ⟨indexLast, hash, info, hbundle, e⟩ :=
              @AuxPowMiner.createAuxBlock_snd P S.cfg address m
            · refine .inl ⟨e, ?_⟩
              show (match AuxPowMiner.bundle P m.chain address with
                | .ok (_, hash, _) => [(hash, address)]
                | .error _ => []) = []
              rw [hbundle]
            · refine .inr ⟨address, indexLast, hash, info, hbundle, e, ?_⟩
              show (match AuxPowMiner.bundle P m.chain address with
                | .ok (_, hash, _) => [(hash, address)]
                | .error _ => []) = [(hash, address)]
              rw [hbundle]
        | submitauxblock => exact absurd rfl (h _ rfl)
        | _ => exact .inl ⟨rfl, rfl⟩

/-- The work on a hash is handed out: the table has a bundle for it, for the client who asked last.
-/
structure Handed (P : Primitives) (chain : List SignedConsensusBlock) (f p : SignedConsensusBlock)
    (hash : BlockHash) (s : MiningNode) : Prop where
  working : Working P chain f p s.miner.chain
  bundle : ∃ info, s.miner.state.lookup hash = some info ∧ Bundled P chain f p hash info ∧
    (s.log.filter (·.1 = hash)).getLast? = some (hash, info.address)

/-- Other requests leave the work that was handed out. -/
lemma Handed.rpc {req : HttpRequest} (h : Handed P chain f p hash s)
    (quiet : ∀ request, req.body = some request → request.method ≠ .submitauxblock) :
    Handed P chain f p hash (s.step P S (.rpc req)) := by
  obtain ⟨info, hinfo, bundled, hlog⟩ := h.bundle
  obtain ⟨e, hout⟩ | ⟨address, indexLast, hash', info', hbundle, e, hout⟩ :=
    @rpc_cases P S req s.miner quiet
  · refine ⟨?_, info, ?_, bundled, ?_⟩
    · simp only [step, e]
      exact h.working
    · simp only [step, e]
      exact hinfo
    · simp only [step, hout, List.append_nil]
      exact hlog
  · obtain ⟨_, rfl, bundled'⟩ := h.working.bundle hbundle
    refine ⟨?_, ?_⟩
    · simp only [step, e]
      exact h.working
    · simp only [step, e, hout]
      rcases eq_or_ne hash' hash with rfl | ne
      · refine ⟨info', Finmap.lookup_insert _, bundled', ?_⟩
        rw [List.filter_append, List.filter_cons_of_pos (by simp), List.filter_nil,
          List.getLast?_concat]
      · refine ⟨info, ?_, bundled, ?_⟩
        · rw [Finmap.lookup_insert_of_ne _ ne.symm, hinfo]
        · rw [List.filter_append, List.filter_cons_of_neg (by simpa using ne), List.filter_nil,
            List.append_nil, hlog]

lemma Handed.step {e : MiningEvent} (hP : RootsSound P) (h : Handed P chain f p hash s)
    (quiet : s.Quiet P e) : ∃ chain', Handed P chain' f p hash (s.step P S e) := by
  cases e with
  | rpc req => exact ⟨chain, h.rpc quiet⟩
  | accept env b =>
    obtain ⟨info, hinfo, bundled, hlog⟩ := h.bundle
    rcases @Working.accept P chain f p b s.miner.chain h.working hP S.cfg env quiet.1 quiet.2 with
      working | working
    · exact ⟨chain, working, info, hinfo, bundled, hlog⟩
    · exact ⟨chain ++ [b], working, info, hinfo,
        bundled.append h.working.cached.single.linear, hlog⟩

end MiningNode

/-! ## Submissions -/

variable {P : Primitives} {auxpow : AuxPow} {bits chainId height : Nat}
  {chain : List SignedConsensusBlock} {f p : SignedConsensusBlock} {hash : BlockHash}
  {cfg : ChainConfig} {signer : Option BitcoinSigner}

/-- A proof for a bundle passes the check of the chain. -/
lemma Bundled.checkPow {params : BitcoinConsensusParams} {info : AuxInfo} {c : Chain}
    (h : Bundled P chain f p hash info) (working : Working P chain f p c)
    (hbits : c.storage.nextWorkRequired params p.message = .ok bits)
    (hmet : auxpow.checkProofOfWork P bits = true) (hcheck : auxpow.check P hash chainId = .ok ()) :
    checkPow P params c.storage
      ⟨info.startHash, info.endHash, bits, chainId, height, some auxpow, info.address⟩ false =
      .ok () := by
  have L := working.cached.single.linear
  obtain ⟨start, stop, hstart, hstop, lt, hfirst, hend, rfl⟩ := h.range
  have hparent : start.message.parentHash = f.canonicalRoot P :=
    L.parent (L.getElem? working.mem) hstart
  have range : RangeChecked P c.storage
      ⟨info.startHash, info.endHash, bits, chainId, height, some auxpow, info.address⟩ start
      ((segment chain (f.number + 1) stop.number).map (·.canonicalRoot P)) := by
    refine ⟨?_, ⟨f.blockRef P, working.final, fun _ => hparent⟩, ?_⟩
    · rw [hfirst]
      exact L.getBlock (List.mem_of_getElem? hstart)
    · rw [hparent, hend]
      exact L.getHashes_eq working.mem hstop lt
  rw [range.checkPow_eq working.getLastFinalizedBlock hbits]
  exact checkedPow_ok_iff.mpr ⟨auxpow, rfl, hmet, hcheck⟩

/-- A header that passes the check is queued, if none was queued. -/
lemma pushAuxpow_queued {header : AuxPowHeader} {c : Chain} (hqueue : c.queuedPow = none)
    (hcheck : checkPow P cfg.retargetParams c.storage header false = .ok ()) :
    (pushAuxpow P cfg signer header c).2.queuedPow = some header := by
  have hpush : pushAuxpow P cfg signer header c =
      (queuePow P cfg signer header >>= fun _ => pure true : Action Chain Failure Bool) c := by
    simp only [pushAuxpow, Action.bind_apply, Action.get_apply, Action.ite_apply, hqueue, hcheck]
    rfl
  rw [hpush, Action.bind_pure_snd]
  exact queuePow_queuedPow c

/-- A solved bundle is pushed, whatever the outcome is. -/
lemma AuxPowMiner.submitAuxBlock_chain {info : AuxInfo} {header : AuxPowHeader} {m : AuxPowMiner}
    (hinfo : m.state.lookup hash = some info)
    (hsolved : solvedHeader P cfg.retargetParams m.chain.storage info hash auxpow = .ok header) :
    (submitAuxBlock P cfg signer hash auxpow m).2.chain =
      (pushAuxpow P cfg signer header m.chain).2 := by
  obtain ⟨_, hheader, _⟩ | ⟨_, c', hheader, ⟨_, hpush, e⟩ | ⟨_, hpush, e⟩⟩ :=
    @submitAuxBlock_cases P cfg signer hash auxpow info m hinfo
  · cases hsolved.symm.trans hheader
  · cases hsolved.symm.trans hheader
    rw [hpush, e]
  · cases hsolved.symm.trans hheader
    rw [hpush, e]

/-- A proof for the hash is queued, for the client who asked last. -/
lemma MiningNode.Handed.submit {S : RpcServer} {s : MiningNode} (h : Handed P chain f p hash s)
    (hid : p.message.chainId = .ok chainId)
    (hheight : (checkedU64 (p.message.executionPayload.blockNumber + 1) : Except Failure Nat) =
      .ok height)
    (hbits : s.miner.chain.storage.nextWorkRequired S.cfg.retargetParams p.message = .ok bits)
    (hmet : auxpow.checkProofOfWork P bits = true) (hcheck : auxpow.check P hash chainId = .ok ()) :
    ∃ info, s.miner.state.lookup hash = some info ∧
      (s.log.filter (·.1 = hash)).getLast? = some (hash, info.address) ∧
      (AuxPowMiner.submitAuxBlock P S.cfg S.signer hash auxpow s.miner).2.chain.queuedPow =
        some ⟨info.startHash, info.endHash, bits, chainId, height, some auxpow, info.address⟩ := by
  obtain ⟨info, hinfo, bundled, hlog⟩ := h.bundle
  refine ⟨info, hinfo, hlog, ?_⟩
  have hget : s.miner.chain.storage.getBlockByHash info.lastHash = .ok p.message := by
    have hget : s.miner.chain.storage.getBlock (P.signingRoot p.message) = some p :=
      h.working.cached.single.linear.getBlock h.working.latest.mem
    simp only [Storage.getBlockByHash, bundled.last, hget, okOr, bind, Except.bind]
    rfl
  have hsolved := AuxPowMiner.solvedHeader_eq_ok_iff.mpr
    ⟨p.message, bits, chainId, height, hget, hbits, hid, hmet, hcheck, hheight, rfl⟩
  have hpow : checkPow P S.cfg.retargetParams s.miner.chain.storage
      ⟨info.startHash, info.endHash, bits, chainId, height, some auxpow, info.address⟩ false =
      .ok () := bundled.checkPow h.working hbits hmet hcheck
  rw [AuxPowMiner.submitAuxBlock_chain hinfo hsolved]
  exact pushAuxpow_queued h.working.cached.queue hpow

/-- What the answer to a request for work says. -/
lemma AuxPowMiner.createAuxBlock_eq_ok {address : Address} {m m' : AuxPowMiner} {block : AuxBlock}
    (e : createAuxBlock P cfg address m = (.ok block, m')) :
    ∃ indexLast info, bundle P m.chain address = .ok (indexLast, block.hash, info) ∧
      m' = { m with state := m.state.insert block.hash info } ∧
      indexLast.chainId = .ok block.chainId ∧
      (checkedU64 (indexLast.executionPayload.blockNumber + 1) : Except Failure Nat) =
        .ok block.height := by
  simp only [createAuxBlock, Action.bind_ok_iff, Action.lift_ok_iff] at e
  obtain ⟨_, _, hget, ⟨indexLast, hash, info⟩, _, ⟨hbundle, rfl⟩, _, _, hmodify, bits, _,
    ⟨_, rfl⟩, chainId, _, ⟨hid, rfl⟩, height, _, ⟨hheight, rfl⟩, e⟩ := e
  cases hget
  cases hmodify
  cases e
  exact ⟨indexLast, info, hbundle, rfl, hid, hheight⟩

namespace MiningNode

variable {P : Primitives}

/-- The chain after a submission. -/
lemma httpReqJsonRpc_submission {S : RpcServer} {id : Text} {hash : BlockHash} {auxpow : AuxPow}
    {m : AuxPowMiner} (h : decodeSubmitauxblockArgs S.wire
      (.texts [blockHashToConsensusHex S.wire hash, encodeHex (auxpow.consensusEncode S.wire)]) =
      .ok (hash, auxpow)) :
    (S.httpReqJsonRpc P (submission S.wire id hash auxpow) m).2 =
      (AuxPowMiner.submitAuxBlock P S.cfg S.signer hash auxpow m).2 := by
  show (S.submitauxblock P id _ m).2 = _
  rw [RpcServer.submitauxblock, h]
  exact Action.bind_pure_snd

/-- After a request for work the work on its hash is handed out. -/
lemma Handed.ofCreated {cfg : ChainConfig} {chain : List SignedConsensusBlock} {address : Address}
    {m m₁ : AuxPowMiner} {block : AuxBlock} (cached : Cached P m.chain chain)
    (mined : Mined chain) (created : AuxPowMiner.createAuxBlock P cfg address m = (.ok block, m₁)) :
    ∃ f p, p.message.chainId = .ok block.chainId ∧
      (checkedU64 (p.message.executionPayload.blockNumber + 1) : Except Failure Nat) =
        .ok block.height ∧
      Handed P chain f p block.hash ⟨m₁, [(block.hash, address)]⟩ := by
  obtain ⟨f, mem, final, _⟩ := cached.window
  obtain ⟨p, latest⟩ := cached.single.latestPow
  have working : Working P chain f p m.chain := ⟨cached, mined, mem, final, latest⟩
  obtain ⟨indexLast, info, hbundle, rfl, hid, hheight⟩ := AuxPowMiner.createAuxBlock_eq_ok created
  obtain ⟨rfl, rfl, bundled⟩ := working.bundle hbundle
  refine ⟨f, p, hid, hheight, working, info, Finmap.lookup_insert _, bundled, ?_⟩
  rw [List.filter_cons_of_pos (by simp), List.filter_nil, List.getLast?_singleton]

/-- `try_mine` finds a proof for the work that it was handed and submits it by a request. The bits
and the chain id are `u32`s, and what is submitted can be written. -/
structure Solved (P : Primitives) (L : WireCodecs) (id : Text) (block : AuxBlock) (auxpow : AuxPow)
    (req : HttpRequest) : Prop where
  mine : AuxPow.mine P block.hash block.bits block.chainId = .ok auxpow
  submits : tryMine P L id (block.serialize L) = .ok req
  bits : block.bits < 2 ^ 32
  chainId : block.chainId < 2 ^ 32
  fits : auxpow.Fits L
  small : (auxpow.consensusEncode L).length ≤ maxVecSize

/-- The client works on what the server handed out. -/
lemma Solved.eq_submission {L : WireCodecs} {id : Text} {block : AuxBlock} {auxpow : AuxPow}
    {req : HttpRequest} (h : Solved P L id block auxpow req) (hL : L.Lawful)
    (hhash : block.hash.length = 32) : req = submission L id block.hash auxpow := by
  obtain ⟨work, auxpow', hwork, hmine, rfl⟩ := tryMine_eq_ok_iff.mp h.submits
  obtain ⟨ehash, ebits, eid⟩ := deserialize_serialize hL hhash h.bits hwork
  rw [ehash, ebits, eid] at hmine
  obtain rfl : auxpow = auxpow' := Except.ok.inj (h.mine.symm.trans hmine)
  rw [ehash]

/-- A client asks for work and submits the proof that `try_mine` finds. Meanwhile others ask for
work and the node imports blocks without AuxPow. If the proof meets the target that is required by
then, it is queued, for the range of the bundle in the table. The reward goes to the client who
asked last for work on the same hash. -/
theorem mined_work_queued {P : Primitives} {S : RpcServer} {env : Env} {spec : ChainSpec}
    {payload : ExecutionPayload} {w : UtxoManager} {c₀ c₁ : Chain} {m m₁ : AuxPowMiner}
    {s : MiningNode} {address : Address} {block : AuxBlock} {id : Text} {req : HttpRequest}
    {auxpow : AuxPow} {last : ConsensusBlock} {bits : Nat}
    (hP : RootsSound P) (h32 : ∀ data, (P.sha256d data).length = 32) (hL : S.wire.Lawful)
    (hraw : ∀ hash, S.wire.hash.encode hash = hash)
    (start : storeGenesis P S.cfg env spec payload (Chain.new .empty w) = (.ok (), c₀))
    (init : initBlockHashCache P c₀ = (.ok (), c₁))
    (before : ReorgRun P S.cfg (Followed P) (Stays P) c₁ m.chain)
    (hpow : ∃ root b, m.chain.storage.getBlock root = some b ∧ b.number ≠ 0 ∧
      b.message.auxpowHeader.isSome = true)
    (created : AuxPowMiner.createAuxBlock P S.cfg address m = (.ok block, m₁))
    (run : Run (step P S) (Quiet P) ⟨m₁, [(block.hash, address)]⟩ s)
    (solved : Solved P S.wire id block auxpow req)
    (hlast : s.miner.chain.storage.getLastFinalizedBlock = .ok last)
    (hbits : s.miner.chain.storage.nextWorkRequired S.cfg.retargetParams last = .ok bits)
    (hmet : auxpow.checkProofOfWork P bits = true) :
    ∃ info, s.miner.state.lookup block.hash = some info ∧
      (s.log.filter (·.1 = block.hash)).getLast? = some (block.hash, info.address) ∧
      (S.httpReqJsonRpc P req s.miner).2.chain.queuedPow =
        some ⟨info.startHash, info.endHash, bits, block.chainId, block.height, some auxpow,
          info.address⟩ := by
  obtain ⟨g, fees, _, hg, _, _, _, rfl⟩ := storeGenesis_ok start
  obtain ⟨chain, cached⟩ := Cached.run hP before ⟨[g], .ofGenesis hP hg init⟩
  have mined : Mined chain := by
    obtain ⟨_, b, hget, hb⟩ := hpow
    exact ⟨b, (cached.single.linear.stored.mp hget).1, hb⟩
  obtain ⟨f, p, hchainId, hheight, handed⟩ := Handed.ofCreated cached mined created
  -- the bundle outlives what happens between the request and the submission
  obtain ⟨chain', handed⟩ : ∃ chain', Handed P chain' f p block.hash s :=
    run.invariant (I := fun s => ∃ chain', Handed P chain' f p block.hash s) ⟨chain, handed⟩
      fun _ _ ⟨_, h⟩ quiet => h.step hP quiet
  have hhash : block.hash.length = 32 := by
    obtain ⟨_, _, bundled, _⟩ := handed.bundle
    obtain ⟨_, _, _, _, _, _, _, e⟩ := bundled.range
    rw [e]
    exact h32 _
  obtain ⟨_, hcheck⟩ := AuxPow.mine_valid hhash solved.chainId solved.mine
  cases handed.working.getLastFinalizedBlock.symm.trans hlast
  obtain ⟨info, hinfo, hlog, hqueued⟩ :=
    handed.submit (S := S) hchainId hheight hbits hmet hcheck
  refine ⟨info, hinfo, hlog, ?_⟩
  rw [solved.eq_submission hL hhash, httpReqJsonRpc_submission
    (decodeSubmitauxblockArgs_submission hL hraw hhash solved.fits solved.small)]
  exact hqueued

end MiningNode

lemma Primitives.toyMiner_rootsSound : RootsSound .toyMiner :=
  ⟨Primitives.toy_rootsSound.height, Primitives.toy_rootsSound.nonzero⟩

lemma Chain.toySolved_run :
    ReorgRun .toyMiner (.toy 1 0) (Followed .toyMiner) (Stays .toyMiner) Chain.toyCached
      Chain.toySolved := by
  refine .snoc (.snoc .refl (Reorg.accept .toy (.toy 1 0)) ?_) (Reorg.accept .toy .toySolved) ?_
  · exact ⟨rfl, ⟨⟨toyRoot 0 0, 0⟩, rfl, rfl, rfl⟩, nofun⟩
  · refine ⟨rfl, ⟨⟨toyRoot 1 0, 1⟩, by decide, rfl, rfl⟩, fun pow e => ?_⟩
    cases e
    exact ⟨by decide, ⟨toyRoot 0 0, 0⟩, .toy 1 0, by decide, by decide, by decide⟩

/-- The work that the validator hands out. -/
def AuxBlock.toySolved : AuxBlock :=
  ⟨List.replicate 32 0, 2, toyRoot 2 0, 0, 0x1d00ffff, 3⟩

lemma AuxBlock.toySolved_mine :
    AuxPow.mine .toyMiner AuxBlock.toySolved.hash AuxBlock.toySolved.bits
      AuxBlock.toySolved.chainId = .ok .toyAttempt :=
  (AuxPow.mine_eq_ok_iff rfl (by decide)).mpr
    ⟨by decide, 0, ⟨le_rfl, by decide, rfl, fun _ _ lt => absurd lt (Nat.not_lt_zero _)⟩, rfl⟩

lemma AuxBlock.toySolved_solved :
    MiningNode.Solved .toyMiner .bitcoin [] .toySolved .toyAttempt
      (submission .bitcoin [] AuxBlock.toySolved.hash .toyAttempt) where
  mine := AuxBlock.toySolved_mine
  submits := tryMine_eq_ok_iff.mpr ⟨.toySolved, .toyAttempt, rfl, AuxBlock.toySolved_mine, rfl⟩
  bits := by decide
  chainId := by decide
  fits :=
    { coinbaseTxn := ⟨by decide, by decide, by decide, by decide, by decide⟩
      blockHash := rfl
      coinbaseBranch := ⟨by decide, by decide, by decide⟩
      blockchainBranch := ⟨by decide, by decide, by decide⟩
      parentBlock := WireCodecs.bitcoinHeader_valid.mpr (by decide) }
  small := by decide +kernel

/-- One client asks for work, then another one does, and the first one submits a proof: the second
one gets the reward. -/
theorem mined_work_queued_for_other :
    let first : Address := List.replicate 20 7
    let second : Address := List.replicate 20 9
    let S := RpcServer.toy
    let m₁ := (AuxPowMiner.createAuxBlock .toyMiner S.cfg first ⟨∅, Chain.toySolved⟩).2
    let asks := RpcServer.toyAsks second
    let s := MiningNode.step .toyMiner S (.rpc asks) ⟨m₁, [(AuxBlock.toySolved.hash, first)]⟩
    ∃ info, s.miner.state.lookup AuxBlock.toySolved.hash = some info ∧ info.address = second ∧
      (S.httpReqJsonRpc .toyMiner (submission .bitcoin [] AuxBlock.toySolved.hash .toyAttempt)
        s.miner).2.chain.queuedPow =
        some ⟨info.startHash, info.endHash, 0x1d00ffff, 2, 3, some .toyAttempt, info.address⟩ := by
  intro first second S m₁ asks s
  have created : AuxPowMiner.createAuxBlock .toyMiner S.cfg first ⟨∅, Chain.toySolved⟩ =
      (.ok .toySolved, m₁) := rfl
  have quiet : MiningNode.Quiet .toyMiner ⟨m₁, [(AuxBlock.toySolved.hash, first)]⟩ (.rpc asks) := by
    intro request e
    cases e
    nofun
  have run : Run (MiningNode.step .toyMiner S) (MiningNode.Quiet .toyMiner)
      ⟨m₁, [(AuxBlock.toySolved.hash, first)]⟩ s := .snoc .refl (MiningEvent.rpc asks) quiet
  have hlast : s.miner.chain.storage.getLastFinalizedBlock =
      .ok SignedConsensusBlock.toySolved.message := by decide
  have hbits : s.miner.chain.storage.nextWorkRequired S.cfg.retargetParams
      SignedConsensusBlock.toySolved.message = .ok 0x1d00ffff := by decide
  have hpow : ∃ root b, Chain.toySolved.storage.getBlock root = some b ∧ b.number ≠ 0 ∧
      b.message.auxpowHeader.isSome = true :=
    ⟨toyRoot 2 0, .toySolved, by decide, by decide, rfl⟩
  have start : storeGenesis .toyMiner S.cfg .toyNumbered ⟨0x1d00ffff, 1⟩ (.toy 0)
      (Chain.new .empty .empty) = (.ok (), Chain.toyGenesis) := rfl
  have init : initBlockHashCache .toyMiner Chain.toyGenesis = (.ok (), Chain.toyCached) := rfl
  obtain ⟨info, hinfo, hlog, hqueued⟩ :=
    @MiningNode.mined_work_queued .toyMiner S _ _ _ _ _ _ ⟨∅, Chain.toySolved⟩ m₁ s first
      .toySolved [] _ .toyAttempt _ _ Primitives.toyMiner_rootsSound (fun _ => rfl)
      WireCodecs.bitcoin_lawful (fun _ => rfl) start init Chain.toySolved_run hpow created run
      AuxBlock.toySolved_solved hlast hbits rfl
  have hpayee : (s.log.filter (·.1 = AuxBlock.toySolved.hash)).getLast? =
      some (AuxBlock.toySolved.hash, second) := by decide
  have haddress : info.address = second :=
    congrArg Prod.snd (Option.some.inj (hlog.symm.trans hpayee))
  exact ⟨info, hinfo, haddress, hqueued⟩

end Alys
