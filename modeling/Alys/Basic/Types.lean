import Mathlib.Data.Finmap

/-!
# Data types of the node

Model of the data types of `app/src/block.rs`, `app/src/auxpow.rs`, `app/src/signatures.rs`,
`app/src/store.rs` and of the Bitcoin types that `crates/federation` takes from rust-bitcoin.
Hashes, addresses, keys, signatures and scripts are byte strings. Their length is left free, so that
a hash function can be taken as collision-free without contradiction; nothing below reads a hash
other than by comparing it.

Machine integers are natural numbers. Where the source computes with them, the model checks the
bound at that place: the node is built with the dev profile (`etc/Dockerfile`), so an overflow is a
panic (`Fault.panic`), as are a failed `unwrap` and a division by zero. A loop of the source that
never returns is `Fault.diverge`.

The fields that only `signing_root` reads (state root, transactions, gas, ...) are kept as one byte
string, `ExecutionPayload.rest`.
-/

namespace Alys

/-- A byte string. -/
abbrev Bytes := List UInt8

/-- Lighthouse's `Hash256`. -/
abbrev Hash256 := Bytes

/-- Bitcoin's `BlockHash`. `to_block_hash` converts from and to `Hash256` byte by byte. -/
abbrev BlockHash := Bytes

/-- Bitcoin's `Txid`. -/
abbrev Txid := Bytes

/-- Hash of an execution block (Rust `ExecutionBlockHash`). -/
abbrev ExecutionBlockHash := Bytes

/-- EVM address. -/
abbrev Address := Bytes

/-- A public key, of BLS (the authorities) or of secp256k1 (the Bitcoin federation). -/
abbrev PublicKey := Bytes

/-- A Bitcoin address (Rust `bitcoin::Address`). -/
abbrev BitcoinAddress := Bytes

/-- Text. -/
abbrev Text := List Char

/-- `Hash256::zero()`. -/
def Hash256.zero : Hash256 := List.replicate 32 0

/-- A finite map (Rust `HashMap`, `BTreeMap` or a column of the key-value store). -/
abbrev Map (K V : Type) := Finmap (fun _ : K => V)

/-! ## Errors -/

/-- `federation::Error`. -/
inductive FederationError where
  | parsingError
  | dbError
  | unknownOrSpentInput
  | invalidNumberOfSignatures
  | missingSignature
  | txidNotFound
  | bitcoinError
  | incorrectSignature
  | invalidWitnessLength
  | invalidWitnessScript
  | missingPegoutProposal
  | invalidPegoutOutput
  | invalidPegoutOutputCount
  | feesExceedPegoutValue
  | invalidChangeOutput
  | unspendableInput
  | invalidTransactionHeader
  | insufficientConfirmations (confirmations : Int)
  | notAPegin
  | bitcoinBlockNotFound (hash : BlockHash)
  | rpcError
  deriving DecidableEq

inductive AuraError where
  | slotIsInFuture
  | slotAuthorNotFound
  | badSignature
  deriving DecidableEq

/-- `error::Error`, with the variants that the modelled functions return. -/
inductive Error where
  | invalidBlockHash
  | executionLayerError
  | engineApiError
  | auraError (e : AuraError)
  | federationError (e : FederationError)
  | executionHashChainIncontiguous
  | missingParent
  | invalidSignature
  | unknownAuthority
  | candidateCacheError
  | invalidPowRange
  | invalidBlockRange
  | storageError
  | missingRequiredPow
  | missingBlock
  | processGenesis
  | unknownWithdrawal
  | pegInAlreadyIncluded
  | illegalFinalization
  | invalidBlock
  | invalidPow
  | chainSyncing
  | chainError
  | hashRetrievalError
  | noWorkToDo
  | genericError
  deriving DecidableEq

/-- How a call that returns `Result<_, ε>` can end other than with `Ok`. -/
inductive Fault (ε : Type) where
  /-- an `Err` value -/
  | error (e : ε)
  /-- a panic; the profile sets `panic = "abort"` -/
  | panic
  /-- a loop that never ends -/
  | diverge
  deriving DecidableEq

/-- How a call that returns `Result<_, Error>` can end other than with `Ok`. -/
abbrev Failure := Fault Error

/-- `unwrap` of a result: an `Err` value is a panic. -/
def unwrap {ε α : Type} : Except (Fault ε) α → Except Failure α
  | .ok a => .ok a
  | .error .diverge => .error .diverge
  | .error _ => .error .panic

lemma unwrap_eq_ok {ε α : Type} {r : Except (Fault ε) α} {a : α} (e : unwrap r = .ok a) :
    r = .ok a := by
  unfold unwrap at e
  split at e <;> cases e
  rfl

/-- A `u64` result of an addition or a multiplication: the dev profile panics on overflow. -/
def checkedU64 {ε : Type} (n : Nat) : Except (Fault ε) Nat :=
  if n < 2 ^ 64 then .ok n else .error .panic

lemma checkedU64_of_lt {ε n} (lt : n < 2 ^ 64) : checkedU64 (ε := ε) n = .ok n := if_pos lt

lemma checkedU64_of_not_lt {ε n} (ge : ¬ n < 2 ^ 64) : checkedU64 (ε := ε) n = .error .panic :=
  if_neg ge

lemma checkedU64_eq_ok {ε : Type} {n m : Nat} (e : checkedU64 (ε := ε) n = .ok m) : m = n := by
  unfold checkedU64 at e
  split at e
  case isTrue => exact (Except.ok.inj e).symm
  case isFalse => cases e

lemma checkedU64_lt {ε : Type} {n m : Nat} (e : checkedU64 (ε := ε) n = .ok m) : n < 2 ^ 64 := by
  by_contra ge
  rw [checkedU64_of_not_lt ge] at e
  cases e

/-- A `U256` result of an addition or a multiplication: the `uint` crate panics on overflow. -/
def checkedU256 (n : Nat) : Except Failure Nat :=
  if n < 2 ^ 256 then .ok n else .error .panic

lemma checkedU256_eq_ok {n m : Nat} (e : checkedU256 n = .ok m) : m = n := by
  unfold checkedU256 at e
  split at e
  case isTrue => exact (Except.ok.inj e).symm
  case isFalse => cases e

/-! ## Bitcoin -/

/-- Reference to an output of a transaction. -/
structure OutPoint where
  txid : Txid
  vout : Nat
  deriving DecidableEq

/-- An output. -/
structure TxOut where
  value : Nat
  scriptPubkey : Bytes
  deriving DecidableEq

/-- An input. -/
structure TxIn where
  previousOutput : OutPoint
  scriptSig : Bytes
  sequence : Nat
  witness : List Bytes
  deriving DecidableEq

/-- A Bitcoin transaction. -/
structure Transaction where
  version : Int
  lockTime : Nat
  input : List TxIn
  output : List TxOut
  deriving DecidableEq

/-- Header of a Bitcoin block. -/
structure Header where
  version : Int
  prevBlockhash : BlockHash
  merkleRoot : Bytes
  time : Nat
  bits : Nat
  nonce : Nat
  deriving DecidableEq

/-! ## Merged mining -/

/-- `MerkleBranch`: the sibling hashes and the side on which each of them goes. -/
structure MerkleBranch where
  branchHash : List Bytes
  branchSideMask : Nat
  deriving DecidableEq

/-- `AuxPow`: the proof of work on the auxiliary chain. -/
structure AuxPow where
  coinbaseTxn : Transaction
  blockHash : BlockHash
  coinbaseBranch : MerkleBranch
  blockchainBranch : MerkleBranch
  parentBlock : Header
  deriving DecidableEq

structure AuxPowHeader where
  /-- the oldest block covered -/
  rangeStart : Hash256
  /-- the newest block covered, inclusive -/
  rangeEnd : Hash256
  /-- the difficulty target in compact form -/
  bits : Nat
  chainId : Nat
  /-- the height of the AuxPow, used for difficulty adjustment -/
  height : Nat
  /-- only `none` at genesis -/
  auxpow : Option AuxPow
  /-- the miner's EVM address -/
  feeRecipient : Address
  deriving DecidableEq

/-! ## Blocks -/

/-- A withdrawal of the execution payload, in gwei. -/
structure Withdrawal where
  address : Address
  amount : Nat
  deriving DecidableEq

/-- `ExecutionPayloadCapella`. -/
structure ExecutionPayload where
  parentHash : ExecutionBlockHash
  blockHash : ExecutionBlockHash
  blockNumber : Nat
  timestamp : Nat
  withdrawals : List Withdrawal
  /-- the fields that only the signing root reads -/
  rest : Bytes
  deriving DecidableEq

/-- `ConsensusBlock`: the sidechain block before signing. -/
structure ConsensusBlock where
  parentHash : Hash256
  slot : Nat
  auxpowHeader : Option AuxPowHeader
  executionPayload : ExecutionPayload
  pegins : List (Txid × BlockHash)
  pegoutPaymentProposal : Option Transaction
  finalizedPegouts : List Transaction
  deriving DecidableEq

/-- `MaxValidators`, the upper bound on the number of validators. -/
def maxValidators : Nat := 15

/-- `BitList<MaxValidators>`: at most fifteen bits, of any length a peer chooses. -/
structure BitList where
  bits : List Bool
  length_le : bits.length ≤ maxValidators
  deriving DecidableEq

/-- `BitList::with_capacity(MaxValidators)`: fifteen cleared bits. -/
def BitList.new : BitList where
  bits := List.replicate maxValidators false
  length_le := by simp

structure AggregateApproval where
  aggregationBits : BitList
  aggregateSignature : Bytes
  deriving DecidableEq

/-- `IndividualApproval`. A `CheckedIndividualApproval` wraps the same data. -/
structure IndividualApproval where
  signature : Bytes
  authorityIndex : Nat
  deriving DecidableEq

/-- `ApproveBlock`, the gossip message. -/
structure ApproveBlock where
  blockHash : Hash256
  signature : IndividualApproval
  deriving DecidableEq

structure SignedConsensusBlock where
  message : ConsensusBlock
  signature : AggregateApproval
  deriving DecidableEq

/-- `message.execution_payload.block_number`, the height of the block. -/
def SignedConsensusBlock.number (b : SignedConsensusBlock) : Nat :=
  b.message.executionPayload.blockNumber

structure BlockRef where
  hash : Hash256
  height : Nat
  deriving DecidableEq

/-- The event of `Bridge.sol` that asks for a peg-out, with its value in wei. -/
structure RequestPegOut where
  evmAddress : Address
  bitcoinAddress : Bytes
  value : Nat
  deriving DecidableEq

/-! ## Library functions -/

/-- A Schnorr signature: exactly 64 bytes. -/
structure SchnorrSignature where
  bytes : Bytes
  length_eq : bytes.length = 64
  deriving DecidableEq

def SchnorrSignature.fromSlice (w : Bytes) : Option SchnorrSignature :=
  if h : w.length = 64 then some ⟨w, h⟩ else none

/-- The library functions that the node calls and whose code is not part of the repository: hashing,
BLS, secp256k1, Bitcoin scripts and addresses, and the decoding of an event. Results that rely on
one of them say what they assume of it. -/
structure Primitives where
  /-- `ConsensusBlock::signing_root`: the tree hash of the MessagePack encoding -/
  signingRoot : ConsensusBlock → Hash256
  /-- `Transaction::txid` -/
  txid : Transaction → Txid
  /-- double SHA-256 of a byte string -/
  sha256d : Bytes → Bytes
  /-- `Target::from_compact(bits).is_met_by(header.block_hash())` -/
  isMetBy : Nat → Header → Bool
  /-- BLS `Signature::verify` -/
  blsVerify : Bytes → PublicKey → Hash256 → Bool
  /-- `SignatureSet::multiple_pubkeys(signature, pubkeys, message).verify()` -/
  blsVerifyMultiple : Bytes → List PublicKey → Hash256 → Bool
  /-- `AggregateSignature::empty` -/
  blsEmpty : Bytes
  /-- `AggregateSignature::add_assign` -/
  blsAddAssign : Bytes → Bytes → Bytes
  /-- BLS `SecretKey::sign` -/
  blsSign : Bytes → Hash256 → Bytes
  /-- `PublicKey::to_x_only_pubkey` -/
  toXOnly : PublicKey → Bytes
  /-- `Secp256k1::verify_schnorr(..).is_ok()` -/
  verifySchnorr : SchnorrSignature → Bytes → Bytes → Bool
  /-- `taproot_script_spend_signature_hash` of the given input, previous outputs and script -/
  taprootSighash : Transaction → Nat → List TxOut → Bytes → Bytes
  /-- `Address::script_pubkey` -/
  scriptPubkey : BitcoinAddress → Bytes
  /-- `Address::matches_script_pubkey` -/
  matchesScriptPubkey : BitcoinAddress → Bytes → Bool
  /-- `bitcoin::Address::from_str` -/
  addressFromStr : Text → Option BitcoinAddress
  /-- `Script::is_provably_unspendable` -/
  isProvablyUnspendable : Bytes → Bool
  /-- `Script::is_op_return` -/
  isOpReturn : Bytes → Bool
  /-- `Script::to_asm_string` -/
  toAsmString : Bytes → Text
  /-- `Vec::from_hex` -/
  fromHex : Text → Option Bytes
  /-- `String::from_utf8` -/
  fromUtf8 : Bytes → Option Text
  /-- `H160::from_str` -/
  h160FromStr : Text → Option Address
  /-- `parse_log::<RequestPegOut>`, of the topics and the data of a log -/
  parseRequestPegOut : List Hash256 → Bytes → Option RequestPegOut

def SignedConsensusBlock.canonicalRoot (P : Primitives) (b : SignedConsensusBlock) : Hash256 :=
  P.signingRoot b.message

def SignedConsensusBlock.blockRef (P : Primitives) (b : SignedConsensusBlock) : BlockRef where
  hash := b.canonicalRoot P
  height := b.number

/-! ## Closed instances -/

/-- The root of a block in closed examples spells out its number and its slot; it has 32 bytes if
these are small. -/
def toyRoot (number slot : Nat) : Hash256 :=
  List.replicate (number / 2 ^ 24) 1 ++
    [2, .ofNat (number % 256), .ofNat (number / 256 % 256), .ofNat (number / 65536 % 256)] ++
    (List.replicate slot 1 ++ List.replicate (28 - slot) 0)

/-- Library functions for closed examples: every signature and every proof of work is accepted,
SHA-256 is constant, the hash of a transaction spells out its lock time and the hashes that it
spends from, an address is its own script and the data of an event as many hundredths of a bitcoin
as it has bytes. -/
def Primitives.toy : Primitives where
  signingRoot b := toyRoot b.executionPayload.blockNumber b.slot
  txid tx := 1 :: List.replicate tx.lockTime 1 ++ tx.input.flatMap (·.previousOutput.txid)
  sha256d _ := List.replicate 32 0
  isMetBy _ _ := true
  blsVerify _ _ _ := true
  blsVerifyMultiple _ _ _ := true
  blsEmpty := []
  blsAddAssign s t := s ++ t
  blsSign _ _ := []
  toXOnly := id
  verifySchnorr _ _ _ := true
  taprootSighash _ _ _ _ := []
  scriptPubkey := id
  matchesScriptPubkey a s := a = s
  addressFromStr _ := some []
  isProvablyUnspendable _ := true
  isOpReturn s := s.head? = some 0x6a
  toAsmString _ := []
  fromHex _ := some []
  fromUtf8 _ := some []
  h160FromStr _ := some [7]
  parseRequestPegOut _ data := some ⟨[], [], data.length * 10 ^ 16⟩

/-- A block with neither content nor approvals, whose parent has slot 0. -/
def SignedConsensusBlock.toy (number slot : Nat) : SignedConsensusBlock where
  message :=
    { parentHash := if number = 0 then Hash256.zero else toyRoot (number - 1) 0
      slot, auxpowHeader := none
      executionPayload := ⟨[], [], number, 0, [], []⟩
      pegins := [], pegoutPaymentProposal := none, finalizedPegouts := [] }
  signature := ⟨.new, []⟩

/-- A block of height 1 that lists peg-ins and pays withdrawals. -/
def SignedConsensusBlock.toyPegin (pegins : List Txid) (withdrawals : List Withdrawal) :
    SignedConsensusBlock where
  message :=
    { (SignedConsensusBlock.toy 1 0).message with
      executionPayload := ⟨[], [], 1, 0, withdrawals, []⟩
      pegins := pegins.map fun txid => (txid, []) }
  signature := (SignedConsensusBlock.toy 1 0).signature

end Alys
