import Alys.Basic.Types
import Alys.Lib.Collect

/-!
# The bridge

Model of `Bridge` in `crates/federation/src/lib.rs`: the lookup of a deposit by its transaction
hash, the fields of a peg-in (`pegin_info`) and the peg-out requests among the receipts of an
execution block (`filter_pegouts`). The Bitcoin node is a record of its answers, `BitcoinRpc`. The
stream of Bitcoin blocks and the fee estimate are left out.

`filter_pegouts` looks at the recipient of the transaction and not at the contract that emitted the
log: receipts with another recipient are skipped, and a contract creation, which has no recipient,
is not. `filterPegouts_eq` says what it computes, `filterPegouts_authentic_iff` for which receipts
that is one output for each request of the bridge contract.
-/

namespace Alys
open Lib

/-! ## The Bitcoin node -/

/-- The parts of `GetBlockHeaderResult` that are read. -/
structure BlockHeaderInfo where
  confirmations : Int
  height : Nat

/-- How the lookup of a block header can fail. -/
inductive RpcFailure where
  /-- code -5, "Block not found" -/
  | blockNotFound
  | other

/-- What the Bitcoin node answers. -/
structure BitcoinRpc where
  /-- `get_block_header_info` -/
  getBlockHeaderInfo : BlockHash → Except RpcFailure BlockHeaderInfo
  /-- `get_raw_transaction`, in the given block or in any; `none` is an error -/
  getRawTransaction : Txid → Option BlockHash → Option Transaction
  /-- `get_tx_out`: `none` is an error, `some false` says that there is no such unspent output -/
  getTxOut : Txid → Nat → Option Bool

/-! ## Peg-ins -/

structure PegInInfo where
  txid : Txid
  blockHash : BlockHash
  amount : Nat
  evmAccount : Address
  blockHeight : Nat
  deriving DecidableEq

/-- `Bridge`, without its connection. -/
structure Bridge where
  peginAddresses : List BitcoinAddress
  requiredConfirmations : Nat

/-- The EVM address in an `OP_RETURN` output (Rust `extract_evm_address`): the last word of the
script's text, decoded from hex and, if that gives text, read from there. -/
def extractEvmAddress (P : Primitives) (txOut : TxOut) : Option Address :=
  if !P.isProvablyUnspendable txOut.scriptPubkey || !P.isOpReturn txOut.scriptPubkey then
    none
  else
    let opReturnParts := (P.toAsmString txOut.scriptPubkey).splitOn ' '
    let opReturnHexString := opReturnParts.getLastD []
    match P.fromHex opReturnHexString with
    | none => none
    | some data =>
      match P.fromUtf8 data with
      | none => P.h160FromStr opReturnHexString
      | some addressStr => P.h160FromStr addressStr

/-- The deposit that a transaction makes, if any (Rust `Bridge::pegin_info`): the first output to
the federation and the first EVM address. -/
def Bridge.peginInfo (P : Primitives) (B : Bridge) (tx : Transaction) (blockHash : BlockHash)
    (blockHeight : Nat) : Option PegInInfo := do
  let output ← tx.output.find? fun output =>
    B.peginAddresses.any fun peginAddress => P.matchesScriptPubkey peginAddress output.scriptPubkey
  let evmAccount ← tx.output.findSome? (extractEvmAddress P)
  return ⟨P.txid tx, blockHash, output.value, evmAccount, blockHeight⟩

def Bridge.getConfirmedPeginFromTxid (P : Primitives) (rpc : BitcoinRpc) (B : Bridge) (txid : Txid)
    (blockHash : BlockHash) : Except FederationError PegInInfo :=
  match rpc.getBlockHeaderInfo blockHash with
  | .error .blockNotFound => .error (.bitcoinBlockNotFound blockHash)
  | .error .other => .error .rpcError
  | .ok blockInfo =>
    if blockInfo.confirmations < B.requiredConfirmations then
      .error (.insufficientConfirmations blockInfo.confirmations)
    else
      match rpc.getRawTransaction txid (some blockHash) with
      | none => .error .rpcError
      | some tx =>
        match B.peginInfo P tx blockHash (blockInfo.height % 2 ^ 32) with
        | none => .error .notAPegin
        | some info => .ok info

/-- A deposit that the bridge resolves is one of a transaction that the Bitcoin node reports. -/
lemma Bridge.getConfirmedPeginFromTxid_ok {P rpc txid blockHash info} {B : Bridge}
    (e : B.getConfirmedPeginFromTxid P rpc txid blockHash = .ok info) :
    ∃ header tx, rpc.getBlockHeaderInfo blockHash = .ok header ∧
      rpc.getRawTransaction txid (some blockHash) = some tx ∧
      B.peginInfo P tx blockHash (header.height % 2 ^ 32) = some info := by
  unfold getConfirmedPeginFromTxid at e
  split at e
  case h_1 => cases e
  case h_2 => cases e
  case h_3 header hheader =>
    split at e
    case isTrue => cases e
    case isFalse =>
      split at e
      case h_1 => cases e
      case h_2 tx htx =>
        split at e
        case h_1 => cases e
        case h_2 info' hinfo =>
          cases e
          exact ⟨header, tx, hheader, htx, hinfo⟩

def Bridge.fetchTransaction (rpc : BitcoinRpc) (txid : Txid) (blockHash : BlockHash) :
    Option Transaction :=
  rpc.getRawTransaction txid (some blockHash)

/-! ## Peg-outs -/

/-- A log of the execution layer. -/
structure Log where
  address : Address
  topics : List Hash256
  data : Bytes
  deriving DecidableEq

/-- `TransactionReceipt`, with the fields that are read. -/
structure TransactionReceipt where
  /-- Rust `to`; `none` for a contract creation -/
  recipient : Option Address
  logs : List Log
  gasUsed : Option Nat
  deriving DecidableEq

/-- `Bridge::BRIDGE_CONTRACT_ADDRESS`. -/
def bridgeContractAddress : Address := List.replicate 20 0xbb

/-- `wei_to_sats`; `as_u64` panics for a value that does not fit. -/
def weiToSats (wei : Nat) : Except Failure Nat := checkedU64 (wei / 10000000000)

def parseBitcoinAddress (P : Primitives) (data : Bytes) : Option BitcoinAddress := do
  let addressStr ← P.fromUtf8 data
  P.addressFromStr addressStr

/-- The body of the inner loop of `filter_pegouts`. -/
def pushPegout (P : Primitives) (pegouts : List TxOut) (log : Log) :
    Except Failure (List TxOut) :=
  match P.parseRequestPegOut log.topics log.data with
  | none => .ok pegouts
  | some event => do
    let eventAmountInSats ← weiToSats event.value
    if 1000000 ≤ eventAmountInSats then
      match parseBitcoinAddress P event.bitcoinAddress with
      | none => return pegouts
      | some address => return pegouts ++ [⟨eventAmountInSats, P.scriptPubkey address⟩]
    else
      return pegouts

/-- `Bridge::filter_pegouts`. -/
def filterPegouts (P : Primitives) (receipts : List TransactionReceipt) :
    Except Failure (List TxOut) :=
  receipts.foldlM
    (fun pegouts receipt =>
      match receipt.recipient with
      | some address =>
        -- only check for pegouts to the bridge contract
        if address ≠ bridgeContractAddress then .ok pegouts
        else receipt.logs.foldlM (pushPegout P) pegouts
      | none => receipt.logs.foldlM (pushPegout P) pegouts)
    []

/-- The peg-out that a log asks for: of at least 1000000 satoshi and to a Bitcoin address. -/
def requestedPegout (P : Primitives) (log : Log) : Option TxOut := do
  let event ← P.parseRequestPegOut log.topics log.data
  if 1000000 ≤ event.value / 10000000000 then
    let address ← parseBitcoinAddress P event.bitcoinAddress
    return ⟨event.value / 10000000000, P.scriptPubkey address⟩
  else
    none

/-- The value of a log, in satoshi, fits a `u64`. -/
def ValueFits (P : Primitives) (log : Log) : Prop :=
  ∀ event ∈ P.parseRequestPegOut log.topics log.data, event.value / 10000000000 < 2 ^ 64

instance (P : Primitives) : DecidablePred (ValueFits P) := fun log =>
  match h : P.parseRequestPegOut log.topics log.data with
  | none => .isTrue (by simp [ValueFits, h])
  | some event => decidable_of_iff (event.value / 10000000000 < 2 ^ 64) (by simp [ValueFits, h])

/-- The receipts that are not skipped: to the bridge contract, or of a contract creation. -/
def Considered (receipt : TransactionReceipt) : Prop :=
  ∀ address ∈ receipt.recipient, address = bridgeContractAddress

instance : DecidablePred Considered := fun receipt =>
  inferInstanceAs (Decidable (∀ address ∈ receipt.recipient, address = bridgeContractAddress))

/-- One log: its request is appended, unless the value panics. -/
lemma pushPegout_eq {P} (pegouts : List TxOut) (log : Log) :
    pushPegout P pegouts log =
      if ValueFits P log then .ok (pegouts ++ (requestedPegout P log).toList)
      else .error .panic := by
  unfold pushPegout requestedPegout weiToSats
  cases h : P.parseRequestPegOut log.topics log.data with
  | none => simp [ValueFits, h]
  | some event =>
    by_cases fits : event.value / 10000000000 < 2 ^ 64
    · simp only [if_pos (show ValueFits P log by simpa [ValueFits, h] using fits),
        checkedU64_of_lt fits, bind, Except.bind, Option.bind]
      by_cases large : 1000000 ≤ event.value / 10000000000
      · cases parseBitcoinAddress P event.bitcoinAddress <;> simp [large, pure, Except.pure]
      · simp [large, pure, Except.pure]
    · simp only [if_neg (show ¬ ValueFits P log by simpa [ValueFits, h] using fits),
        checkedU64_of_not_lt fits, bind, Except.bind]

/-- The requests in all receipts that are considered, in order; it panics if one of their values
does not fit. -/
lemma filterPegouts_eq {P} (receipts : List TransactionReceipt) :
    filterPegouts P receipts =
      if ∀ receipt ∈ receipts, Considered receipt → ∀ log ∈ receipt.logs, ValueFits P log then
        .ok (receipts.flatMap fun receipt =>
          if Considered receipt then receipt.logs.filterMap (requestedPegout P) else [])
      else .error .panic := by
  have hbody : ∀ (pegouts : List TxOut) (receipt : TransactionReceipt),
      (match receipt.recipient with
        | some address =>
          if address ≠ bridgeContractAddress then .ok pegouts
          else receipt.logs.foldlM (pushPegout P) pegouts
        | none => receipt.logs.foldlM (pushPegout P) pegouts) =
      if Considered receipt → ∀ log ∈ receipt.logs, ValueFits P log then
        Except.ok (pegouts ++
          if Considered receipt then receipt.logs.filterMap (requestedPegout P) else [])
      else Except.error Fault.panic := by
    intro pegouts receipt
    rw [foldlM_collect pushPegout_eq, ← List.filterMap_eq_flatMap_toList]
    cases h : receipt.recipient with
    | none => simp [show Considered receipt by simp [Considered, h]]
    | some address =>
      by_cases eq : address = bridgeContractAddress
      · simp [eq, show Considered receipt by simp [Considered, h, eq]]
      · simp [eq, show ¬ Considered receipt by simp [Considered, h, eq]]
  exact foldlM_collect hbody receipts []

/-! ## Authentic peg-outs -/

/-- The result is one output for each request that the bridge contract emitted, in order, and no log
of another contract yields an output. -/
def AuthenticPegouts (P : Primitives) (receipts : List TransactionReceipt) : Prop :=
  filterPegouts P receipts =
    .ok (receipts.flatMap fun receipt =>
      (receipt.logs.filter (·.address = bridgeContractAddress)).filterMap (requestedPegout P)) ∧
  ∀ receipt ∈ receipts, ∀ log ∈ receipt.logs, log.address ≠ bridgeContractAddress →
    ∀ out, filterPegouts P [{ receipt with logs := [log] }] ≠ .ok [out]

/-- All logs, each with its receipt, in order. -/
def logsOf (receipts : List TransactionReceipt) : List (TransactionReceipt × Log) :=
  receipts.flatMap fun receipt => receipt.logs.map (receipt, ·)

lemma mem_logsOf {receipts receipt log} :
    (receipt, log) ∈ logsOf receipts ↔ receipt ∈ receipts ∧ log ∈ receipt.logs := by
  simp only [logsOf, List.mem_flatMap, List.mem_map, Prod.mk.injEq]
  constructor
  · rintro ⟨_, hr, _, hl, rfl, rfl⟩
    exact ⟨hr, hl⟩
  · rintro ⟨hr, hl⟩
    exact ⟨receipt, hr, log, hl, rfl, rfl⟩

/-- The requests of the considered receipts as one selection from all logs. -/
lemma flatMap_considered {P} (receipts : List TransactionReceipt) :
    (receipts.flatMap fun receipt =>
      if Considered receipt then receipt.logs.filterMap (requestedPegout P) else []) =
    (logsOf receipts).filterMap
      fun x => if Considered x.1 then requestedPegout P x.2 else none := by
  rw [logsOf, List.filterMap_flatMap]
  refine List.flatMap_congr fun receipt _ => ?_
  rw [List.filterMap_map]
  by_cases h : Considered receipt
  · simp [h]
  · simp [h]

lemma flatMap_emitted {P} (receipts : List TransactionReceipt) :
    (receipts.flatMap fun receipt =>
      (receipt.logs.filter (·.address = bridgeContractAddress)).filterMap (requestedPegout P)) =
    (logsOf receipts).filterMap
      fun x => if x.2.address = bridgeContractAddress then requestedPegout P x.2 else none := by
  rw [logsOf, List.filterMap_flatMap]
  refine List.flatMap_congr fun receipt _ => ?_
  rw [List.filterMap_map, List.filterMap_filter]
  simp

/-- A log yields an output when its receipt is considered and its value fits. -/
lemma filterPegouts_single {P receipt log out} :
    filterPegouts P [{ receipt with logs := [log] }] = .ok [out] ↔
      Considered receipt ∧ ValueFits P log ∧ requestedPegout P log = some out := by
  have hcons : Considered { receipt with logs := [log] } ↔ Considered receipt := Iff.rfl
  rw [filterPegouts_eq]
  by_cases hc : Considered receipt
  · by_cases hf : ValueFits P log
    · cases hr : requestedPegout P log <;> simp [hcons, hc, hf, hr]
    · simp [hcons, hc, hf]
  · simp [hcons, hc]

/-- The outputs are authentic exactly when no value that is looked at overflows and every request is
in a considered receipt if and only if the bridge contract emitted it. -/
theorem filterPegouts_authentic_iff (P : Primitives) (receipts : List TransactionReceipt) :
    AuthenticPegouts P receipts ↔
      (∀ receipt ∈ receipts, Considered receipt → ∀ log ∈ receipt.logs, ValueFits P log) ∧
      ∀ receipt ∈ receipts, ∀ log ∈ receipt.logs, (requestedPegout P log).isSome →
        (Considered receipt ↔ log.address = bridgeContractAddress) := by
  unfold AuthenticPegouts
  rw [filterPegouts_eq, flatMap_considered, flatMap_emitted]
  by_cases hfit : ∀ receipt ∈ receipts, Considered receipt → ∀ log ∈ receipt.logs, ValueFits P log
  case neg => simp [hfit]
  rw [if_pos hfit, Except.ok.injEq]
  constructor
  · rintro ⟨heq, hother⟩
    refine ⟨hfit, fun receipt hr log hl hsome => ?_⟩
    obtain ⟨out, hout⟩ := Option.isSome_iff_exists.mp hsome
    -- what is considered is authentic, so nothing is missing only if nothing is skipped
    have himp : ∀ x ∈ logsOf receipts,
        (if Considered x.1 then requestedPegout P x.2 else none) = none ∨
        (if Considered x.1 then requestedPegout P x.2 else none) =
          if x.2.address = bridgeContractAddress then requestedPegout P x.2 else none := by
      rintro ⟨r, l⟩ mem
      obtain ⟨hr, hl⟩ := mem_logsOf.mp mem
      by_cases hc : Considered r
      · by_cases ha : l.address = bridgeContractAddress
        · exact .inr (by simp [hc, ha])
        · cases hq : requestedPegout P l with
          | none => exact .inl (by simp)
          | some o =>
            exact absurd (filterPegouts_single.mpr ⟨hc, hfit r hr hc l hl, hq⟩)
              (hother r hr l hl ha o)
      · exact .inl (by simp [hc])
    have := filterMap_eq_of_imp himp heq (receipt, log) (mem_logsOf.mpr ⟨hr, hl⟩)
    by_cases hc : Considered receipt <;> by_cases ha : log.address = bridgeContractAddress <;>
      simp_all
  · rintro ⟨_, hiff⟩
    refine ⟨List.filterMap_congr ?_, ?_⟩
    · rintro ⟨receipt, log⟩ mem
      obtain ⟨hr, hl⟩ := mem_logsOf.mp mem
      cases hq : requestedPegout P log with
      | none => simp
      | some out => simp only [hiff receipt hr log hl (by simp [hq])]
    · intro receipt hr log hl ha out hout
      obtain ⟨hc, _, hq⟩ := filterPegouts_single.mp hout
      exact ha ((hiff receipt hr log hl (by simp [hq])).mp hc)

/-- A contract creation whose constructor emits the event: the log is not the bridge contract's, yet
it yields an output. -/
theorem filterPegouts_forged :
    ¬ ∀ (P : Primitives) (receipts : List TransactionReceipt), AuthenticPegouts P receipts := by
  intro all
  obtain ⟨_, hother⟩ := all .toy [⟨none, [⟨[1], [], [0]⟩], none⟩]
  exact hother _ List.mem_cons_self _ List.mem_cons_self (by decide) ⟨1000000, []⟩ (by rfl)

end Alys
