import Alys.Chain.Store
import Alys.Aura.Majority
import Alys.Candidate.Cache
import Alys.Federation.Collector
import Alys.Pow.AuxPow
import Alys.Pow.Retarget

/-!
# The state of a node

Model of the state that `Chain` in `app/src/chain.rs` holds, of its constant configuration, and of
what the execution layer, the Bitcoin node and the disk answer during a step (`Env`). Metrics,
peers, the network handle and the circuit breaker are left out.

`imported` is not part of the node: it records the blocks whose import was committed, each with the
store before it and what the environment answered, so that properties of whole runs can be stated.
-/

namespace Alys
open Lib

/-! ## The execution layer -/

/-- A transaction of the execution layer, with the fields that the fees depend on. -/
structure ExecutionTransaction where
  hash : Hash256
  gasPrice : Option Nat
  maxFeePerGas : Option Nat
  maxPriorityFeePerGas : Option Nat

/-- A block of the execution layer, with its transactions. -/
structure ExecutionBlock where
  baseFeePerGas : Option Nat
  transactions : List ExecutionTransaction

/-- What the node's environment answers during one step. -/
structure Env where
  rpc : BitcoinRpc
  /-- `engine.commit_block` -/
  commitBlock : ExecutionPayload → Except Failure Unit
  /-- `engine.get_block_with_txs` -/
  getBlockWithTxs : ExecutionBlockHash → Except Failure (Option ExecutionBlock)
  /-- `engine.get_transaction_receipt`; `none` for an error as well as for no receipt -/
  getTransactionReceipt : Hash256 → Option TransactionReceipt
  /-- whether `storage.commit_ops` succeeds -/
  commitOps : Bool

/-- An execution block and the receipts that were found (Rust `Chain::get_block_and_receipts`). -/
def Env.getBlockAndReceipts (env : Env) (blockHash : ExecutionBlockHash) :
    Except Failure (ExecutionBlock × List TransactionReceipt) := do
  let block ← okOr (← env.getBlockWithTxs blockHash) (.error .missingBlock)
  return (block, block.transactions.filterMap fun tx => env.getTransactionReceipt tx.hash)

/-- `TxFees::effective_gas_tip`. The gas price is unwrapped even where another field is set. -/
def ExecutionTransaction.effectiveGasTip (tx : ExecutionTransaction) (baseFee : Nat) :
    Except Failure Nat := do
  let gasPrice ← okOr tx.gasPrice .panic
  let gasFeeCap := tx.maxFeePerGas.getD gasPrice
  let gasTipCap := tx.maxPriorityFeePerGas.getD gasPrice
  if gasFeeCap < baseFee then
    throw .panic
  return min gasTipCap (gasFeeCap - baseFee)

/-- The fees of an execution block (Rust `total_fees`). -/
def totalFees (block : ExecutionBlock) (receipts : List TransactionReceipt) : Except Failure Nat :=
  (block.transactions.zip receipts).foldlM
    (fun feesWei (tx, receipt) => do
      let baseFee ← okOr block.baseFeePerGas .panic
      let minerFee ← tx.effectiveGasTip baseFee
      let gasUsed ← okOr receipt.gasUsed .panic
      let fee ← checkedU256 (gasUsed * minerFee)
      checkedU256 (feesWei + fee))
    0

/-! ## The node -/

inductive SyncStatus where
  | inProgress
  | synced
  deriving DecidableEq

def SyncStatus.isSynced : SyncStatus → Bool
  | .inProgress => false
  | .synced => true

/-- The fields of `Chain` that never change. -/
structure ChainConfig where
  aura : Aura
  maxBlocksWithoutPow : Nat
  /-- the fee recipients -/
  federation : List Address
  bridge : Bridge
  /-- the federation of the wallet and of the signature collector -/
  bitcoinFederation : Federation
  retargetParams : BitcoinConsensusParams
  isValidator : Bool

/-- A block whose import was committed, with the store before it and the answers during it. -/
structure Import where
  before : Storage
  block : SignedConsensusBlock
  env : Env

/-- The fields of `Chain` that change. -/
structure Chain where
  storage : Storage
  /-- the head in memory -/
  head : Option BlockRef
  syncStatus : SyncStatus
  blockCandidates : BlockCandidateCache
  queuedPow : Option AuxPowHeader
  queuedPegins : Map Txid PegInInfo
  bitcoinWallet : UtxoManager
  bitcoinSignatureCollector : BitcoinSignatureCollector
  blockHashCache : List BlockHash
  /-- the committed imports, the latest last -/
  imported : List Import

/-- A computation on the node. -/
abbrev ChainM := Action Chain Failure

/-- A node that starts on a store, with an empty cache (Rust `Chain::new`). -/
def Chain.new (storage : Storage) (bitcoinWallet : UtxoManager) : Chain where
  storage
  head := storage.head
  syncStatus := .synced
  blockCandidates := .empty
  queuedPow := none
  queuedPegins := ∅
  bitcoinWallet
  bitcoinSignatureCollector := .empty
  blockHashCache := []
  imported := []

namespace ChainM

/-- A computation on the candidate cache. -/
def onCandidates {α : Type} (x : Action BlockCandidateCache Failure α) : ChainM α :=
  Action.zoom (·.blockCandidates) (fun c s => { s with blockCandidates := c }) id x

end ChainM

/-- A result of the federation crate, with its error converted. -/
def liftFederation {α : Type} (r : Except FederationError α) : Except Failure α :=
  r.mapError fun e => .error (.federationError e)

lemma liftFederation_eq_ok {α : Type} {r : Except FederationError α} {a : α}
    (e : liftFederation r = .ok a) : r = .ok a := by
  cases r with
  | ok => cases e; rfl
  | error => cases e

/-! ## Closed instances -/

/-- The configuration of the `i`-th of `n` validators. -/
def ChainConfig.toy (n i : Nat) : ChainConfig where
  aura := ⟨(List.range n).map fun k => [UInt8.ofNat k], 2000, some ⟨[], i⟩⟩
  maxBlocksWithoutPow := 10
  federation := [[100], [101]]
  bridge := ⟨[[0x51]], 6⟩
  bitcoinFederation := .toy
  retargetParams := ⟨486604799, 439495319, 100, 10, true, 20⟩
  isValidator := true

/-- A Bitcoin node that knows a deposit of 1000 satoshi under every hash of the toy form, with all
outputs unspent. -/
def BitcoinRpc.toy : BitcoinRpc where
  getBlockHeaderInfo _ := .ok ⟨6, 1⟩
  getRawTransaction txid _ :=
    if txid = 1 :: List.replicate (txid.length - 1) 1 then
      some ⟨2, txid.length - 1, [], [⟨1000, [0x51]⟩, ⟨0, [0x6a]⟩]⟩
    else
      none
  getTxOut _ _ := some true

/-- A store with a block of height 0. -/
def Storage.toy : Storage where
  blocks := Finmap.singleton (toyRoot 0 0) (SignedConsensusBlock.toy 0 0)
  blockByHeight := Finmap.singleton 0 (toyRoot 0 0)
  blockFees := Finmap.singleton (toyRoot 0 0) 0
  head := some ⟨toyRoot 0 0, 0⟩
  latestPowBlock := none

/-- An environment in which every call succeeds. -/
def Env.toy : Env where
  rpc := .toy
  commitBlock _ := .ok ()
  getBlockWithTxs _ := .ok (some ⟨some 0, []⟩)
  getTransactionReceipt _ := none
  commitOps := true

end Alys
