import Alys.Chain.Withdrawals

/-!
# Processing blocks and approvals

Model of `check_pow`, `process_block`, `process_approval`, `maybe_accept_block` and the import of an
accepted block in `app/src/chain.rs`. Each call is one step of the node. The checks of
`process_block` are `validateBlock`; their only effect is that outputs found on the Bitcoin network
are registered, which stays when a later check fails. What follows them, storing the candidate and
the node's own approval, is `storeCandidate`.

The candidate cache is cleared before the import of the accepted block; a failed import does not
refill it.
-/

namespace Alys
open Lib

/-! ## Proof of work -/

/-- `Chain::check_pow`. The fields `bits` and `height` of the header are not read, and `chain_id`
only by the check of the merged-mining proof. -/
def checkPow (P : Primitives) (params : BitcoinConsensusParams) (s : Storage)
    (header : AuxPowHeader) (powOverride : Bool) : Except Failure Unit := do
  let lastPow ← okOr s.latestPowBlock .panic
  let lastPowBlock ← okOr (s.getBlock lastPow.hash) (.error .missingBlock)
  let lastFinalized ← okOr (← s.getLatestFinalizedBlockRef P) (.error .missingBlock)
  let rangeStartBlock ← okOr (s.getBlock header.rangeStart) (.error .genericError)
  if 53143 < rangeStartBlock.number ∧ rangeStartBlock.message.parentHash ≠ lastFinalized.hash then
    throw (.error .invalidPowRange)
  let hashes ← s.getHashes rangeStartBlock.message.parentHash header.rangeEnd
  let hash := AuxPow.aggregateHash P hashes
  let head ← s.getHead
  let bits ← getNextWorkRequired lastPowBlock.message params head.number
  let auxpow ← okOr header.auxpow .panic
  if powOverride || auxpow.checkProofOfWork P bits then
    unwrap (auxpow.check P hash header.chainId)
  else
    throw (.error .invalidPow)

/-- The check of one finalized peg-out of a block with an AuxPow header. -/
def checkFinalizedPegout (P : Primitives) (cfg : ChainConfig) (w : UtxoManager)
    (powOverride : Bool) (x : Txid × Transaction) : Except Failure Unit := do
  if P.txid x.2 ≠ x.1 then
    throw (.error .illegalFinalization)
  liftFederation (w.checkTransactionSignatures P cfg.bitcoinFederation x.2 powOverride)

/-- The branch of `process_block` for a block with an AuxPow header. -/
def checkFinalization (P : Primitives) (cfg : ChainConfig) (s : Storage) (w : UtxoManager)
    (b : SignedConsensusBlock) (pow : AuxPowHeader) : Except Failure Unit := do
  let powOverride := decide (b.number ≤ 533683)
  checkPow P cfg.retargetParams s pow powOverride
  let proposals ← s.getBitcoinPaymentProposalsInRange pow.rangeStart pow.rangeEnd
  let requiredFinalizations := proposals.map P.txid
  if requiredFinalizations.length ≠ b.message.finalizedPegouts.length then
    throw (.error .illegalFinalization)
  if cfg.isValidator then
    (requiredFinalizations.zip b.message.finalizedPegouts).forM
      (checkFinalizedPegout P cfg w powOverride)

/-- The branch of `process_block` for a block without an AuxPow header. -/
def checkNoFinalization (P : Primitives) (cfg : ChainConfig) (s : Storage)
    (b : SignedConsensusBlock) : Except Failure Unit := do
  let latestFinalizedHeight := ((← s.getLatestFinalizedBlockRef P).map (·.height)).getD 0
  if cfg.maxBlocksWithoutPow < b.number - latestFinalizedHeight then
    throw (.error .missingRequiredPow)
  if !b.message.finalizedPegouts.isEmpty then
    throw (.error .illegalFinalization)

/-- The checks of `process_block` on the proof of work. -/
def checkAuxPow (P : Primitives) (cfg : ChainConfig) (s : Storage) (w : UtxoManager)
    (b : SignedConsensusBlock) : Except Failure Unit :=
  match b.message.auxpowHeader with
  | some pow => checkFinalization P cfg s w b pow
  | none => checkNoFinalization P cfg s b

/-! ## Validation -/

/-- The checks of `process_block` that come before the wallet is involved. -/
def checkParent (P : Primitives) (cfg : ChainConfig) (s : Storage) (head : Option BlockRef)
    (b : SignedConsensusBlock) : Except Failure Unit := do
  if b.message.parentHash = Hash256.zero then
    throw (.error .processGenesis)
  if head.any fun head => b.number ≤ head.height then
    -- ignore proposals at old heights
    throw (.error .invalidBlock)
  let prev ← s.getParent b
  if b.message.executionPayload.parentHash ≠ prev.message.executionPayload.blockHash then
    throw (.error .executionHashChainIncontiguous)
  cfg.aura.checkSignedByAuthor P b

/-- The outputs that have to be registered for a block's peg-out proposal (the part of
`Chain::check_pegout_proposal` that reads). -/
def findMissingUtxos (P : Primitives) (cfg : ChainConfig) (env : Env) (w : UtxoManager)
    (b : SignedConsensusBlock) : Except Failure (List LocalUtxo) := do
  -- a block of the testnet's past is not checked
  if b.number = 70132 then
    return []
  let (_, executionReceipts) ← env.getBlockAndReceipts b.message.executionPayload.parentHash
  let requiredOutputs ← filterPegouts P executionReceipts
  liftFederation (w.checkPaymentProposal P cfg.bitcoinFederation requiredOutputs
    b.message.pegoutPaymentProposal (some env.rpc))

/-- Registers outputs in the wallet. -/
def Chain.registerUtxos (missing : List LocalUtxo) (c : Chain) : Chain :=
  { c with bitcoinWallet := c.bitcoinWallet.registerUtxos missing }

/-- `Chain::check_pegout_proposal`. -/
def checkPegoutProposal (P : Primitives) (cfg : ChainConfig) (env : Env)
    (b : SignedConsensusBlock) : ChainM Unit := do
  let c ← Action.get
  let missing ← Action.lift (findMissingUtxos P cfg env c.bitcoinWallet b)
  Action.modify (Chain.registerUtxos missing)

/-- The checks of `process_block`. -/
def validateBlock (P : Primitives) (cfg : ChainConfig) (env : Env) (b : SignedConsensusBlock) :
    ChainM Unit := do
  let c ← Action.get
  Action.lift (checkParent P cfg c.storage c.head b)
  if cfg.isValidator then
    Action.lift (checkWithdrawals P cfg env.rpc c.storage c.bitcoinWallet b)
    checkPegoutProposal P cfg env b
  let c ← Action.get
  Action.lift (checkAuxPow P cfg c.storage c.bitcoinWallet b)

/-- Stores a valid block as a candidate and adds the node's own approval (the second half of
`process_block`). -/
def storeCandidate (P : Primitives) (cfg : ChainConfig) (b : SignedConsensusBlock) :
    ChainM (Option IndividualApproval) := do
  let c ← Action.get
  let syncStatus := c.syncStatus.isSynced
  ChainM.onCandidates (BlockCandidateCache.insert P b syncStatus)
  match cfg.aura.authority with
  | some authority =>
    let ourApproval := b.message.sign P authority
    ChainM.onCandidates (BlockCandidateCache.addApproval P ⟨b.canonicalRoot P, ourApproval⟩
      cfg.aura.authorities syncStatus)
    return some ourApproval
  | none => return none

/-! ## Import -/

/-- The fees accumulated up to a block (Rust `Chain::accumulate_fees`). -/
def accumulateFees (P : Primitives) (s : Storage) (b : SignedConsensusBlock)
    (executionBlock : ExecutionBlock) (executionReceipts : List TransactionReceipt) :
    Except Failure (List StoreOp) := do
  let fees :=
    if b.message.auxpowHeader.isSome then 0
    else (s.blockFees.lookup b.message.parentHash).getD 0
  let blockFees ← totalFees executionBlock executionReceipts
  let fees ← checkedU256 (fees + blockFees)
  return [.putBlockFees (b.canonicalRoot P) fees]

/-- Registers one peg-in of an imported block. -/
def importPegin (P : Primitives) (cfg : ChainConfig) (env : Env) (pegin : Txid × BlockHash) :
    ChainM Unit := do
  Action.modify fun c => { c with queuedPegins := c.queuedPegins.erase pegin.1 }
  let tx ← Action.lift (okOr (Bridge.fetchTransaction env.rpc pegin.1 pegin.2) .panic)
  Action.modify fun c =>
    { c with bitcoinWallet := c.bitcoinWallet.registerPegin P cfg.bitcoinFederation tx }

/-- Registers the peg-out proposal of an imported block. -/
def importPegout (P : Primitives) (cfg : ChainConfig) (pegout : Option Transaction) : ChainM Unit :=
  match pegout with
  | none => return
  | some tx =>
    Action.zoom (·.bitcoinWallet) (fun w c => { c with bitcoinWallet := w }) (fun _ => .panic)
      (UtxoManager.registerPegout P cfg.bitcoinFederation tx)

/-- Drops the signatures of the finalized peg-outs of an imported block; whether the broadcast
succeeds makes no difference to the node. -/
def importFinalized (P : Primitives) (finalizedPegouts : List Transaction) (c : Chain) : Chain :=
  { c with
    bitcoinSignatureCollector := finalizedPegouts.foldl
      (fun collector tx => collector.cleanupSignaturesFor (P.txid tx)) c.bitcoinSignatureCollector }

/-- The effects of an import on the validator's wallet. -/
def importPegs (P : Primitives) (cfg : ChainConfig) (env : Env) (b : SignedConsensusBlock) :
    ChainM Unit := do
  Action.forEach b.message.pegins (importPegin P cfg env)
  importPegout P cfg b.message.pegoutPaymentProposal
  Action.modify (importFinalized P b.message.finalizedPegouts)

/-- `Chain::update_head_ref_ops`: the head in memory changes at once. -/
def updateHeadRefOps (newHead : BlockRef) (rollbackOverride : Bool) : ChainM (List StoreOp) := do
  let c ← Action.get
  if c.head.any (fun head => newHead.height < head.height) ∧ !rollbackOverride then
    return []
  else
    Action.modify fun c => { c with head := some newHead }
    return [.putHead newHead]

/-- `Chain::finalize`. -/
def finalize (P : Primitives) (b : SignedConsensusBlock) (pow : AuxPowHeader) :
    ChainM (List StoreOp) := do
  Action.modify fun c => { c with queuedPow := none }
  let c ← Action.get
  if pow.rangeEnd ≠ Hash256.zero ∧ (c.storage.getBlock pow.rangeEnd).isNone then
    Action.fail .panic
  else
    return [.putLatestPowBlock (b.blockRef P)]

/-- Commits the operations of an import, atomically, and records it. -/
def commitImport (env : Env) (b : SignedConsensusBlock) (ops : List StoreOp) : ChainM Unit :=
  if env.commitOps then
    Action.modify fun c =>
      { c with
        storage := c.storage.applyOps ops
        imported := c.imported ++ [⟨c.storage, b, env⟩] }
  else
    Action.fail (.error .storageError)

/-- `BlockHashCache::reset_with`: drops the hashes up to and including the given one. -/
def resetWith (hashes : List BlockHash) (hash : BlockHash) : Except Failure (List BlockHash) :=
  match hashes.findIdx? (· = hash) with
  | some index => .ok (hashes.drop (index + 1))
  | none => .error (.error .genericError)

/-- The update of the block hash cache after a commit. -/
def updateBlockHashCache (P : Primitives) (b : SignedConsensusBlock) : ChainM Unit :=
  if b.number = 0 then
    return
  else do
    match b.message.auxpowHeader with
    | some auxHeader =>
      let c ← Action.get
      let hashes ← Action.lift (resetWith c.blockHashCache auxHeader.rangeEnd)
      Action.modify fun c => { c with blockHashCache := hashes }
    | none => pure ()
    Action.modify fun c => { c with blockHashCache := c.blockHashCache ++ [b.canonicalRoot P] }

/-- Stores an imported block (the second half of `import_verified_block_no_commit`). -/
def storeBlock (P : Primitives) (env : Env) (b : SignedConsensusBlock)
    (accumulateFeesOps : List StoreOp) : ChainM Unit := do
  let putBlockOps := Storage.putBlock (b.canonicalRoot P) b
  let setHeadOps ← updateHeadRefOps (b.blockRef P) false
  let finalizationOps ←
    match b.message.auxpowHeader with
    | some pow => finalize P b pow
    | none => pure []
  commitImport env b (accumulateFeesOps ++ putBlockOps ++ setHeadOps ++ finalizationOps)
  updateBlockHashCache P b

/-- `Chain::import_verified_block_no_commit`. -/
def importVerifiedBlockNoCommit (P : Primitives) (cfg : ChainConfig) (env : Env)
    (b : SignedConsensusBlock) : ChainM Unit := do
  let (executionBlock, executionReceipts) ←
    Action.lift (env.getBlockAndReceipts b.message.executionPayload.blockHash)
  let c ← Action.get
  let accumulateFeesOps ←
    Action.lift (accumulateFees P c.storage b executionBlock executionReceipts)
  if cfg.isValidator then
    importPegs P cfg env b
  storeBlock P env b accumulateFeesOps

/-- `Chain::import_verified_block`. -/
def importVerifiedBlock (P : Primitives) (cfg : ChainConfig) (env : Env)
    (b : SignedConsensusBlock) : ChainM Unit := do
  Action.lift (env.commitBlock b.message.executionPayload)
  importVerifiedBlockNoCommit P cfg env b

/-! ## Steps -/

/-- `Chain::maybe_accept_block`. -/
def maybeAcceptBlock (P : Primitives) (cfg : ChainConfig) (env : Env) (hash : Hash256) :
    ChainM Unit := do
  let c ← Action.get
  match c.blockCandidates.getBlock hash with
  | none => Action.fail (.error .candidateCacheError)
  | some block =>
    if ← Action.lift (cfg.aura.majorityApproved P block) then
      Action.modify fun c => { c with blockCandidates := .empty }
      importVerifiedBlock P cfg env block

/-- `Chain::process_block`. -/
def processBlock (P : Primitives) (cfg : ChainConfig) (env : Env) (b : SignedConsensusBlock) :
    ChainM (Option IndividualApproval) := do
  validateBlock P cfg env b
  let ourApproval ← storeCandidate P cfg b
  maybeAcceptBlock P cfg env (b.canonicalRoot P)
  return ourApproval

/-- `Chain::process_approval`. -/
def processApproval (P : Primitives) (cfg : ChainConfig) (env : Env) (approval : ApproveBlock) :
    ChainM Unit := do
  let c ← Action.get
  ChainM.onCandidates
    (BlockCandidateCache.addApproval P approval cfg.aura.authorities c.syncStatus.isSynced)
  maybeAcceptBlock P cfg env approval.blockHash

end Alys
