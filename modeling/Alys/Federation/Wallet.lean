import Alys.Federation.Bridge
import Alys.Lib.Action

/-!
# The federation wallet

Model of `UtxoManager` in `crates/federation/src/bitcoin_signing.rs`: the transactions and unspent
outputs that a node records for the federation, the check of a peg-out proposal against them, and
the check of the signatures of a finalized transaction. The key-value tree is a pair of finite maps;
its own failures and the keychain kind are left out.

A record of an output is written in four places: by `register_pegin` and `register_pegout` for the
outputs of a transaction, by `register_pegout` for its inputs, and by `register_utxos` for what the
Bitcoin node reported. All but the second write the record as unspent, whatever was there before.
-/

namespace Alys
open Lib

/-- `Federation`: the script tree is kept as the leaf script and its serialized control block. -/
structure Federation where
  taprootAddress : BitcoinAddress
  redeemScript : Bytes
  /-- `control_block_witness()` -/
  controlBlockWitness : Bytes
  threshold : Nat
  pubkeys : List PublicKey

structure LocalUtxo where
  txout : TxOut
  outpoint : OutPoint
  isSpent : Bool
  deriving DecidableEq

structure UtxoManager where
  utxos : Map OutPoint LocalUtxo
  rawTxs : Map Txid Transaction

namespace UtxoManager

/-- An empty wallet. -/
def empty : UtxoManager := ⟨∅, ∅⟩

/-! ## Registering -/

/-- `set_utxo` of the database. -/
def setUtxo (utxo : LocalUtxo) (w : UtxoManager) : UtxoManager :=
  { w with utxos := w.utxos.insert utxo.outpoint utxo }

/-- `set_raw_tx` of the database. -/
def setRawTx (P : Primitives) (transaction : Transaction) (w : UtxoManager) : UtxoManager :=
  { w with rawTxs := w.rawTxs.insert (P.txid transaction) transaction }

/-- The outputs of a transaction that go to the federation, as unspent. -/
def outputsToFederation (P : Primitives) (F : Federation) (transaction : Transaction) :
    List LocalUtxo :=
  transaction.output.zipIdx.filterMap fun (txout, vout) =>
    if P.matchesScriptPubkey F.taprootAddress txout.scriptPubkey then
      some ⟨txout, ⟨P.txid transaction, vout⟩, false⟩
    else
      none

def registerUtxos (utxos : List LocalUtxo) (w : UtxoManager) : UtxoManager :=
  utxos.foldl (fun w utxo => w.setUtxo utxo) w

def registerOutputsFrom (P : Primitives) (F : Federation) (transaction : Transaction)
    (w : UtxoManager) : UtxoManager :=
  w.registerUtxos (outputsToFederation P F transaction)

def registerPegin (P : Primitives) (F : Federation) (transaction : Transaction)
    (w : UtxoManager) : UtxoManager :=
  (w.setRawTx P transaction).registerOutputsFrom P F transaction

/-- Marks one input of a peg-out as spent; it has to be recorded. -/
def markSpent (input : TxIn) : Action UtxoManager FederationError Unit := fun w =>
  match w.utxos.lookup input.previousOutput with
  | none => (.error .dbError, w)
  | some utxo => (.ok (), w.setUtxo { utxo with isSpent := true })

def registerPegout (P : Primitives) (F : Federation) (transaction : Transaction) :
    Action UtxoManager FederationError Unit := do
  Action.modify (setRawTx P transaction)
  Action.forEach transaction.input markSpent
  Action.modify (registerOutputsFrom P F transaction)

/-! ## Reading -/

def getTx (w : UtxoManager) (txid : Txid) : Option Transaction := w.rawTxs.lookup txid

def getTransaction (w : UtxoManager) (txid : Txid) : Except FederationError Transaction :=
  match w.rawTxs.lookup txid with
  | none => .error .dbError
  | some tx => .ok tx

def hasSpendableUtxo (w : UtxoManager) (outpoint : OutPoint) : Bool :=
  ((w.utxos.lookup outpoint).map fun utxo => !utxo.isSpent).getD false

/-! ## The check of a peg-out proposal -/

def tryFetchUtxo (P : Primitives) (F : Federation) (rpc : BitcoinRpc) (outpoint : OutPoint) :
    Except FederationError LocalUtxo :=
  match rpc.getRawTransaction outpoint.txid none with
  | none => .error .bitcoinError
  | some tx =>
    match tx.output[outpoint.vout]? with
    | none => .error .unknownOrSpentInput
    | some txout =>
      if !P.matchesScriptPubkey F.taprootAddress txout.scriptPubkey then
        .error .unknownOrSpentInput
      else
        match rpc.getTxOut outpoint.txid outpoint.vout with
        | some true => .ok ⟨txout, outpoint, false⟩
        | some false => .error .unknownOrSpentInput
        | none =>
          -- the call failed: fall back to the transaction itself
          if tx.input.any fun input => input.previousOutput = outpoint then
            .error .unknownOrSpentInput
          else
            .ok ⟨txout, outpoint, false⟩

/-- The check of one input: a spendable record, or an output that the Bitcoin node reports, which is
then one of the missing outputs. -/
def checkInput (P : Primitives) (F : Federation) (bridge : Option BitcoinRpc) (w : UtxoManager)
    (missingUtxos : List LocalUtxo) (input : TxIn) : Except FederationError (List LocalUtxo) :=
  if w.hasSpendableUtxo input.previousOutput then
    .ok missingUtxos
  else
    match bridge with
    | none => .error .unspendableInput
    | some rpc =>
      match tryFetchUtxo P F rpc input.previousOutput with
      | .ok utxo => .ok (missingUtxos ++ [utxo])
      | .error _ => .error .unspendableInput

/-- The check of the outputs: as required, each with at most the required value, and at most one
more that pays the change to the federation. -/
def checkOutputs (P : Primitives) (F : Federation) (requiredOutputs actualOutputs : List TxOut) :
    Except FederationError Unit := do
  if actualOutputs.length = requiredOutputs.length + 1 then
    if actualOutputs.getLast?.map (·.scriptPubkey) ≠ some (P.scriptPubkey F.taprootAddress) then
      throw .invalidChangeOutput
  else if actualOutputs.length ≠ requiredOutputs.length then
    throw .invalidPegoutOutputCount
  if (requiredOutputs.zip actualOutputs).any fun (required, actual) =>
      required.scriptPubkey ≠ actual.scriptPubkey || required.value < actual.value then
    throw .invalidPegoutOutput

/-- `UtxoManager::check_payment_proposal`. It returns the outputs to be registered. -/
def checkPaymentProposal (P : Primitives) (F : Federation) (w : UtxoManager)
    (requiredOutputs : List TxOut) (pegoutProposal : Option Transaction)
    (bridge : Option BitcoinRpc) : Except FederationError (List LocalUtxo) :=
  match pegoutProposal with
  | none => if requiredOutputs.isEmpty then .ok [] else .error .missingPegoutProposal
  | some tx => do
    checkOutputs P F requiredOutputs tx.output
    let missingUtxos ← tx.input.foldlM (checkInput P F bridge w) []
    if tx.lockTime ≠ 0 ∨ tx.version ≠ 2 then
      throw .invalidTransactionHeader
    return missingUtxos

/-! ## Signatures -/

/-- The recorded outputs that a transaction spends. -/
def prevouts (w : UtxoManager) (transaction : Transaction) : Except FederationError (List TxOut) :=
  transaction.input.mapM fun input =>
    match w.utxos.lookup input.previousOutput with
    | none => .error .unknownOrSpentInput
    | some utxo => .ok utxo.txout

/-- The message to sign for each input (Rust `UtxoManager::get_signing_inputs`). -/
def getSigningInputs (P : Primitives) (F : Federation) (w : UtxoManager)
    (transaction : Transaction) : Except FederationError (List Bytes) := do
  let prevouts ← w.prevouts transaction
  return (List.range transaction.input.length).map fun idx =>
    P.taprootSighash transaction idx prevouts F.redeemScript

/-- The check of one signature of an input against the key in its place. -/
def checkWitness (P : Primitives) (msg : Bytes) (x : Bytes × PublicKey) :
    Except FederationError Unit :=
  match SchnorrSignature.fromSlice x.1 with
  | none => .error .incorrectSignature
  | some sig =>
    if P.verifySchnorr sig msg (P.toXOnly x.2) then .ok () else .error .incorrectSignature

/-- The body of the loop of `check_transaction_signatures`. The witness stack holds the signatures
in the reverse order of the keys, empty for a key that did not sign, then the script and the control
block. -/
def checkWitnesses (P : Primitives) (F : Federation) (x : Bytes × TxIn) :
    Except FederationError Unit := do
  let witnesses := x.2.witness
  let sigs := (witnesses.zip F.pubkeys.reverse).filter fun (witness, _) => !witness.isEmpty
  if witnesses.length ≠ F.pubkeys.length + 2 ∨ sigs.length ≠ F.threshold then
    throw .invalidWitnessLength
  sigs.forM (checkWitness P x.1)
  if [F.redeemScript, F.controlBlockWitness] ≠ witnesses.drop F.pubkeys.length then
    throw .invalidWitnessScript

def checkTransactionSignatures (P : Primitives) (F : Federation) (w : UtxoManager)
    (transaction : Transaction) (witnessLenOverride : Bool) : Except FederationError Unit := do
  if witnessLenOverride then
    return
  let signingMessages ← w.getSigningInputs P F transaction
  (signingMessages.zip transaction.input).forM (checkWitnesses P F)

/-- `UtxoManager::check_input_signatures`, of a key and one signature for each input. -/
def checkInputSignatures (P : Primitives) (F : Federation) (w : UtxoManager)
    (transaction : Transaction) (signatures : PublicKey × List SchnorrSignature) :
    Except FederationError Unit := do
  let signingMessages ← w.getSigningInputs P F transaction
  if signingMessages.length ≠ signatures.2.length then
    throw .invalidNumberOfSignatures
  let isOk := (signingMessages.zip signatures.2).all fun (msg, sig) =>
    P.verifySchnorr sig msg (P.toXOnly signatures.1)
  if isOk then return else throw .incorrectSignature

end UtxoManager

end Alys
