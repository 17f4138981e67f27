import Alys.Chain.Process

/-!
# The miner

Model of `AuxPowMiner` in `app/src/auxpow_miner.rs` and of the functions of `ChainManager` that it
calls on the chain. A miner asks for the commitment to the blocks that no AuxPow covers yet, and the
node remembers for it which blocks these are and which block contains the latest AuxPow. When the
miner comes back with a proof, the node builds the AuxPow header from what it remembered and from
the store as it is then, checks it and queues it for the next block that it produces.

A header that comes in a block from a peer need not have been built here.
-/

namespace Alys
open Lib

/-! ## Queueing an AuxPow -/

/-- `Chain::store_signatures`. -/
def storeSignatures (P : Primitives) (cfg : ChainConfig)
    (pegoutSigs : List (Txid × PublicKey × List SchnorrSignature)) : ChainM Unit :=
  Action.forEach pegoutSigs fun (txid, sigs) => do
    let c ← Action.get
    Action.zoom (·.bitcoinSignatureCollector)
      (fun collector c => { c with bitcoinSignatureCollector := collector })
      (fun e => .error (.federationError e))
      (BitcoinSignatureCollector.addSignature P cfg.bitcoinFederation c.bitcoinWallet txid sigs)

/-- `Chain::maybe_generate_signatures`. The code keeps the signatures by the hash of the
transaction; a transaction that occurs twice gets the same ones, so that storing them twice makes no
difference. -/
def maybeGenerateSignatures (P : Primitives) (cfg : ChainConfig) (signer : Option BitcoinSigner)
    (pow : AuxPowHeader) : ChainM Unit :=
  match signer with
  | none => return
  | some bitcoinSigner => do
    let c ← Action.get
    let proposals ← Action.lift
      (c.storage.getBitcoinPaymentProposalsInRange pow.rangeStart pow.rangeEnd)
    let signatures ← Action.lift (proposals.mapM fun tx => do
      let sig ← liftFederation
        (bitcoinSigner.getInputSignatures P cfg.bitcoinFederation c.bitcoinWallet tx)
      return (P.txid tx, sig))
    Action.zoom id (fun c _ => c) (fun _ => .panic) (storeSignatures P cfg signatures)

/-- `Chain::queue_pow`. -/
def queuePow (P : Primitives) (cfg : ChainConfig) (signer : Option BitcoinSigner)
    (pow : AuxPowHeader) : ChainM Unit := do
  Action.modify fun c => { c with queuedPow := some pow }
  Action.zoom id (fun c _ => c) (fun _ => .panic) (maybeGenerateSignatures P cfg signer pow)

/-- `ChainManager::push_auxpow`; sharing the header with the peers makes no difference to the node.
-/
def pushAuxpow (P : Primitives) (cfg : ChainConfig) (signer : Option BitcoinSigner)
    (pow : AuxPowHeader) : ChainM Bool := do
  let c ← Action.get
  if c.queuedPow.any fun prev =>
      prev.rangeStart = pow.rangeStart ∧ prev.rangeEnd = pow.rangeEnd then
    return false
  else
    match checkPow P cfg.retargetParams c.storage pow false with
    | .ok _ =>
      queuePow P cfg signer pow
      return true
    | .error (.error _) => return false
    | .error f => Action.fail f

section
variable {P : Primitives} {cfg : ChainConfig} {signer : Option BitcoinSigner}

/-- The signing of the finalized proposals writes to the signature collector only. -/
lemma maybeGenerateSignatures_keeps {pow} {I : Chain → Prop}
    (h : ∀ c collector, I c → I { c with bitcoinSignatureCollector := collector }) :
    Action.Keeps I (maybeGenerateSignatures P cfg signer pow) := by
  cases signer with
  | none => exact .pure
  | some bitcoinSigner =>
    refine .bind .get fun c => .lift_bind fun proposals _ => .lift_bind fun signatures _ => ?_
    refine .zoom (Action.Keeps.forEach ?_)
    rintro ⟨txid, sigs⟩ _
    exact .bind .get fun _ => .zoom fun c hc => h c _ hc

lemma queuePow_queuedPow {pow} (c : Chain) :
    (queuePow P cfg signer pow c).2.queuedPow = some pow :=
  maybeGenerateSignatures_keeps (I := fun c => c.queuedPow = some pow) (fun _ _ hc => hc)
    { c with queuedPow := some pow } rfl

/-- A failure to sign is a panic. -/
lemma queuePow_ne_error {pow e} (c : Chain) :
    (queuePow P cfg signer pow c).1 ≠ .error (.error e) := by
  simp only [queuePow, Action.bind_apply, Action.modify_apply, Action.zoom, id]
  rcases maybeGenerateSignatures P cfg signer pow { c with queuedPow := some pow } with ⟨_ | _, _⟩
  · simp
  · simp

/-- Queueing a header changes the queue and the signatures. -/
lemma queuePow_snd {pow : AuxPowHeader} (c : Chain) :
    ∃ collector, (queuePow P cfg signer pow c).2 =
      { c with queuedPow := some pow, bitcoinSignatureCollector := collector } := by
  have keeps : Action.Keeps
      (fun c' => ∃ collector,
        c' = { c with queuedPow := some pow, bitcoinSignatureCollector := collector })
      (maybeGenerateSignatures P cfg signer pow) := by
    refine maybeGenerateSignatures_keeps ?_
    rintro _ collector ⟨_, rfl⟩
    exact ⟨collector, rfl⟩
  exact keeps { c with queuedPow := some pow } ⟨c.bitcoinSignatureCollector, rfl⟩

/-- A header that is pushed changes the queue and the signatures at most, and is queued only if it
passes the check. -/
lemma pushAuxpow_snd {header : AuxPowHeader} (c : Chain) :
    (∃ queuedPow collector, (pushAuxpow P cfg signer header c).2 =
      { c with queuedPow, bitcoinSignatureCollector := collector }) ∧
    ((pushAuxpow P cfg signer header c).2.queuedPow = c.queuedPow ∨
      (pushAuxpow P cfg signer header c).2.queuedPow = some header ∧
        checkPow P cfg.retargetParams c.storage header false = .ok ()) := by
  have same : (∃ queuedPow collector,
      c = { c with queuedPow, bitcoinSignatureCollector := collector }) ∧
      (c.queuedPow = c.queuedPow ∨ c.queuedPow = some header ∧
        checkPow P cfg.retargetParams c.storage header false = .ok ()) :=
    ⟨⟨c.queuedPow, c.bitcoinSignatureCollector, rfl⟩, .inl rfl⟩
  simp only [pushAuxpow, Action.bind_apply, Action.get_apply, Action.ite_apply]
  split
  case isTrue => exact same
  case isFalse =>
    cases hcheck : checkPow P cfg.retargetParams c.storage header false with
    | error f =>
      rw [hcheck] at same
      cases f with
      | error => exact same
      | panic => exact same
      | diverge => exact same
    | ok =>
      obtain ⟨collector, hqueue⟩ := @queuePow_snd P cfg signer header c
      show (∃ queuedPow collector, ((queuePow P cfg signer header >>= fun _ => pure true :
          Action Chain Failure Bool) c).2 = _) ∧ _
      rw [Action.bind_pure_snd, hqueue]
      exact ⟨⟨some header, collector, rfl⟩, .inr ⟨rfl, rfl⟩⟩

end

/-! ## The miner's side -/

structure AuxInfo where
  /-- the block that contains the latest AuxPow -/
  lastHash : BlockHash
  startHash : BlockHash
  endHash : BlockHash
  address : Address

/-- `AuxBlock`; the target is that of `bits`. -/
structure AuxBlock where
  hash : BlockHash
  chainId : Nat
  previousBlockHash : BlockHash
  coinbaseValue : Nat
  bits : Nat
  height : Nat

/-- The block that contains the latest AuxPow (Rust `ChainManager::get_last_finalized_block`). -/
def Storage.getLastFinalizedBlock (s : Storage) : Except Failure ConsensusBlock := do
  let ref ← okOr s.latestPowBlock .panic
  let block ← okOr (s.getBlock ref.hash) .panic
  return block.message

/-- `ChainManager::get_block_by_hash`. -/
def Storage.getBlockByHash (s : Storage) (hash : BlockHash) : Except Failure ConsensusBlock := do
  let block ← okOr (s.getBlock hash) .panic
  return block.message

/-- `ChainManager::get_aggregate_hashes`. -/
def Chain.getAggregateHashes (c : Chain) : Except Failure (List BlockHash) := do
  let head ← okOr c.head (.error .chainError)
  if c.queuedPow.all fun pow => pow.rangeEnd ≠ head.hash then
    return c.blockHashCache
  else
    throw (.error .noWorkToDo)

/-- `AuxPowMiner::get_next_work_required`. -/
def Storage.nextWorkRequired (s : Storage) (params : BitcoinConsensusParams)
    (indexLast : ConsensusBlock) : Except Failure Nat := do
  let head ← s.getHead
  getNextWorkRequired indexLast params head.number

/-- `AuxPowMiner`: the bundles that were handed out, and the chain. -/
structure AuxPowMiner where
  state : Map BlockHash AuxInfo
  chain : Chain

namespace AuxPowMiner

/-- The bundle of a request, by its hash. -/
def bundle (P : Primitives) (c : Chain) (address : Address) :
    Except Failure (ConsensusBlock × BlockHash × AuxInfo) := do
  if !c.syncStatus.isSynced then
    throw (.error .chainSyncing)
  let indexLast ← c.storage.getLastFinalizedBlock
  let hashes ← c.getAggregateHashes
  let startHash ← okOr hashes.head? (.error .hashRetrievalError)
  let endHash ← okOr hashes.getLast? (.error .hashRetrievalError)
  return (indexLast, AuxPow.aggregateHash P hashes,
    ⟨P.signingRoot indexLast, startHash, endHash, address⟩)

/-- `AuxPowMiner::create_aux_block`. The bundle stays remembered when a later step fails. -/
def createAuxBlock (P : Primitives) (cfg : ChainConfig) (address : Address) :
    Action AuxPowMiner Failure AuxBlock := do
  let m ← Action.get
  let (indexLast, hash, info) ← Action.lift (bundle P m.chain address)
  Action.modify fun m => { m with state := m.state.insert hash info }
  let bits ← Action.lift (m.chain.storage.nextWorkRequired cfg.retargetParams indexLast)
  let chainId ← Action.lift indexLast.chainId
  let height ← Action.lift (checkedU64 (indexLast.executionPayload.blockNumber + 1))
  return ⟨hash, chainId, P.signingRoot indexLast, 0, bits, height⟩

/-- The header for a solved bundle, from the store at the time of the submission (the part of
`submit_aux_block` before `push_auxpow`). -/
def solvedHeader (P : Primitives) (params : BitcoinConsensusParams) (s : Storage) (info : AuxInfo)
    (hash : BlockHash) (auxpow : AuxPow) : Except Failure AuxPowHeader := do
  let indexLast ← s.getBlockByHash info.lastHash
  let bits ← s.nextWorkRequired params indexLast
  let chainId ← indexLast.chainId
  if auxpow.checkProofOfWork P bits then
    match auxpow.check P hash chainId with
    | .ok _ =>
      let height ← checkedU64 (indexLast.executionPayload.blockNumber + 1)
      return ⟨info.startHash, info.endHash, bits, chainId, height, some auxpow, info.address⟩
    | .error (.error _) => throw (.error .genericError)
    | .error .panic => throw .panic
    | .error .diverge => throw .diverge
  else
    throw (.error .genericError)

/-- `AuxPowMiner::submit_aux_block`. The bundle is forgotten whatever follows, and the answer does
not tell whether the header was queued. -/
def submitAuxBlock (P : Primitives) (cfg : ChainConfig) (signer : Option BitcoinSigner)
    (hash : BlockHash) (auxpow : AuxPow) : Action AuxPowMiner Failure Unit := do
  let m ← Action.get
  match m.state.lookup hash with
  | none => Action.fail (.error .genericError)
  | some info =>
    Action.modify fun m => { m with state := m.state.erase hash }
    let header ← Action.lift
      (solvedHeader P cfg.retargetParams m.chain.storage info hash auxpow)
    let _ ← Action.zoom (·.chain) (fun c m => { m with chain := c }) id
      (pushAuxpow P cfg signer header)

/-! ## What the requests do -/

section
variable {P : Primitives} {cfg : ChainConfig} {signer : Option BitcoinSigner}

/-- A bundle, with the block that contains the latest AuxPow. -/
lemma bundle_eq_ok_iff {c : Chain} {address : Address}
    {r : ConsensusBlock × BlockHash × AuxInfo} :
    bundle P c address = .ok r ↔ c.syncStatus.isSynced = true ∧
      ∃ indexLast hashes start stop, c.storage.getLastFinalizedBlock = .ok indexLast ∧
        c.getAggregateHashes = .ok hashes ∧ hashes.head? = some start ∧
        hashes.getLast? = some stop ∧
        r = (indexLast, AuxPow.aggregateHash P hashes,
          ⟨P.signingRoot indexLast, start, stop, address⟩) := by
  simp only [bundle, guard_eq_ok_iff, bind_eq_ok_iff, okOr_eq_ok_iff]
  constructor
  · rintro ⟨synced, indexLast, hlast, hashes, hhashes, start, hstart, stop, hstop, e⟩
    cases e
    exact ⟨by simpa using synced, indexLast, hashes, start, stop, hlast, hhashes, hstart, hstop,
      rfl⟩
  · rintro ⟨synced, indexLast, hashes, start, stop, hlast, hhashes, hstart, hstop, rfl⟩
    exact ⟨by simpa using synced, indexLast, hlast, hashes, hhashes, start, hstart, stop, hstop,
      rfl⟩

/-- A request for work changes the table at most. -/
lemma createAuxBlock_snd (address : Address) (m : AuxPowMiner) :
    (∃ f, bundle P m.chain address = .error f ∧ (createAuxBlock P cfg address m).2 = m) ∨
      ∃ indexLast hash info, bundle P m.chain address = .ok (indexLast, hash, info) ∧
        (createAuxBlock P cfg address m).2 = { m with state := m.state.insert hash info } := by
  simp only [createAuxBlock, Action.bind_apply, Action.get_apply, Action.lift_apply]
  rcases hbundle : bundle P m.chain address with f | ⟨indexLast, hash, info⟩
  · exact .inl ⟨f, rfl, rfl⟩
  · refine .inr ⟨indexLast, hash, info, rfl, ?_⟩
    simp only [Action.modify_apply]
    cases m.chain.storage.nextWorkRequired cfg.retargetParams indexLast with
    | error => rfl
    | ok bits =>
      cases indexLast.chainId with
      | error => rfl
      | ok chainId =>
        cases (checkedU64 (indexLast.executionPayload.blockNumber + 1) : Except Failure Nat) with
        | error => rfl
        | ok height => rfl

/-- The header for a solved bundle. -/
lemma solvedHeader_eq_ok_iff {params : BitcoinConsensusParams} {s : Storage}
    {info : AuxInfo} {hash : BlockHash} {auxpow : AuxPow} {pow : AuxPowHeader} :
    solvedHeader P params s info hash auxpow = .ok pow ↔
      ∃ indexLast bits chainId height, s.getBlockByHash info.lastHash = .ok indexLast ∧
        s.nextWorkRequired params indexLast = .ok bits ∧ indexLast.chainId = .ok chainId ∧
        auxpow.checkProofOfWork P bits = true ∧ auxpow.check P hash chainId = .ok () ∧
        (checkedU64 (indexLast.executionPayload.blockNumber + 1) : Except Failure Nat) =
          .ok height ∧
        pow = ⟨info.startHash, info.endHash, bits, chainId, height, some auxpow, info.address⟩ := by
  simp only [solvedHeader, bind_eq_ok_iff]
  constructor
  · rintro ⟨indexLast, hlast, bits, hbits, chainId, hid, e⟩
    split at e
    case isFalse => cases e
    case isTrue hmet =>
      split at e
      case h_1 hcheck =>
        obtain ⟨height, hheight, e⟩ := bind_eq_ok_iff.mp e
        cases e
        exact ⟨indexLast, bits, chainId, height, hlast, hbits, hid, hmet, hcheck, hheight, rfl⟩
      all_goals cases e
  · rintro ⟨indexLast, bits, chainId, height, hlast, hbits, hid, hmet, hcheck, hheight, rfl⟩
    refine ⟨indexLast, hlast, bits, hbits, chainId, hid, ?_⟩
    rw [if_pos hmet, hcheck]
    exact bind_eq_ok_iff.mpr ⟨height, hheight, rfl⟩

/-- What a submission for a remembered bundle does: it forgets the bundle, and it fails with the
building of the header or ends as the pushing of the header does. -/
lemma submitAuxBlock_cases {hash : BlockHash} {auxpow : AuxPow} {info : AuxInfo}
    {m : AuxPowMiner} (hinfo : m.state.lookup hash = some info) :
    (∃ f, solvedHeader P cfg.retargetParams m.chain.storage info hash auxpow = .error f ∧
      submitAuxBlock P cfg signer hash auxpow m = (.error f, ⟨m.state.erase hash, m.chain⟩)) ∨
    ∃ header c', solvedHeader P cfg.retargetParams m.chain.storage info hash auxpow = .ok header ∧
      ((∃ f, pushAuxpow P cfg signer header m.chain = (.error f, c') ∧
          submitAuxBlock P cfg signer hash auxpow m = (.error f, ⟨m.state.erase hash, c'⟩)) ∨
        ∃ r, pushAuxpow P cfg signer header m.chain = (.ok r, c') ∧
          submitAuxBlock P cfg signer hash auxpow m = (.ok (), ⟨m.state.erase hash, c'⟩)) := by
  have hsubmit : submitAuxBlock P cfg signer hash auxpow m =
      (do
        let header ← Action.lift
          (solvedHeader P cfg.retargetParams m.chain.storage info hash auxpow)
        let _ ← Action.zoom (·.chain) (fun c m => { m with chain := c }) id
          (pushAuxpow P cfg signer header) : Action AuxPowMiner Failure Unit)
        { m with state := m.state.erase hash } := by
    simp only [submitAuxBlock, Action.bind_apply, Action.get_apply, hinfo]
    rfl
  rw [hsubmit]
  cases solvedHeader P cfg.retargetParams m.chain.storage info hash auxpow with
  | error f => exact .inl ⟨f, rfl, rfl⟩
  | ok header =>
    simp only [Action.bind_apply, Action.lift_apply, Action.zoom]
    rcases hpush : pushAuxpow P cfg signer header m.chain with ⟨f | r, c'⟩
    · exact .inr ⟨header, c', rfl, .inl ⟨f, hpush, rfl⟩⟩
    · exact .inr ⟨header, c', rfl, .inr ⟨r, hpush, rfl⟩⟩

/-- A submission forgets its bundle at most, and changes the queue and the signatures at most. -/
lemma submitAuxBlock_snd (hash : BlockHash) (auxpow : AuxPow) (m : AuxPowMiner) :
    ∃ state queuedPow collector, (state = m.state ∨ state = m.state.erase hash) ∧
      (submitAuxBlock P cfg signer hash auxpow m).2 =
        ⟨state, { m.chain with queuedPow, bitcoinSignatureCollector := collector }⟩ := by
  cases hinfo : m.state.lookup hash with
  | none =>
    refine ⟨m.state, m.chain.queuedPow, m.chain.bitcoinSignatureCollector, .inl rfl, ?_⟩
    simp only [submitAuxBlock, Action.bind_apply, Action.get_apply, hinfo]
    rfl
  | some info =>
    obtain ⟨_, _, e⟩ | ⟨header, c', _, h⟩ :=
      @submitAuxBlock_cases P cfg signer hash auxpow info m hinfo
    · exact ⟨_, m.chain.queuedPow, m.chain.bitcoinSignatureCollector, .inr rfl, by rw [e]⟩
    · obtain ⟨queuedPow, collector, hpush⟩ := (@pushAuxpow_snd P cfg signer header m.chain).1
      have hc : c' = { m.chain with queuedPow, bitcoinSignatureCollector := collector } := by
        rcases h with ⟨_, e, _⟩ | ⟨_, e, _⟩
        · rw [← hpush, e]
        · rw [← hpush, e]
      refine ⟨_, queuedPow, collector, .inr rfl, ?_⟩
      rcases h with ⟨_, _, e⟩ | ⟨_, _, e⟩
      · rw [e, hc]
      · rw [e, hc]

end

end AuxPowMiner

end Alys
