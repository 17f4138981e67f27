import Alys.Federation.Collector
import Alys.Lib.Collect
import Mathlib.Algebra.GroupWithZero.Nat

/-!
# Creating a payment

Model of `UtxoManager::create_payment` in `crates/federation/src/bitcoin_signing.rs`, which the
producer of a block calls for the requested peg-outs. The inputs are chosen by the coin selection of
bdk; it, the order of the records in the database, the weight of a transaction and the fee for a
weight are a library's (`Bdk`). `satisfaction_weight` is the field of `Federation`.

Fees enter twice. The coin selection sets the fee of spending each input, and of a change output,
aside from the inputs. Afterwards the fee of the whole transaction is deducted from the peg-outs.
-/

namespace Alys
open Lib

/-! ## The library -/

/-- `bdk::FeeRate`, as the fee for a weight (`fee_wu`). -/
structure FeeRate where
  feeWu : Nat → Nat

structure WeightedUtxo where
  satisfactionWeight : Nat
  utxo : LocalUtxo

/-- What the selected inputs have beyond the target (bdk `Excess`). -/
inductive Excess where
  | noChange (dustThreshold remainingAmount changeFee : Nat)
  | change (amount fee : Nat)
  deriving DecidableEq

/-- `CoinSelectionResult`, with the fields that are read. -/
structure CoinSelectionResult where
  selected : List LocalUtxo
  excess : Excess
  deriving DecidableEq

/-- The functions of bdk and rust-bitcoin that `create_payment` calls. -/
structure Bdk where
  /-- `Database::iter_utxos` -/
  iterUtxos : UtxoManager → List LocalUtxo
  /-- `BranchAndBoundCoinSelection::coin_select`, of the required and the optional outputs, the fee
  rate, the target and the script for the change -/
  coinSelect : List WeightedUtxo → List WeightedUtxo → FeeRate → Nat → Bytes →
    Option CoinSelectionResult
  /-- `Transaction::weight` -/
  weight : Transaction → Nat
  /-- `TXIN_BASE_WEIGHT`: what the coin selection takes for the weight of an input without what
  satisfies its script -/
  txinBaseWeight : Nat

/-- The fee of spending an output, as the coin selection reckons it. -/
def Bdk.spendFee (bdk : Bdk) (feeRate : FeeRate) (utxo : WeightedUtxo) : Nat :=
  feeRate.feeWu (bdk.txinBaseWeight + utxo.satisfactionWeight)

/-- What is neither paid to the target nor returned as change. -/
def Excess.lost : Excess → Nat
  | .noChange _ remainingAmount _ => remainingAmount
  | .change _ fee => fee

/-- What is returned as change. -/
def Excess.amount : Excess → Nat
  | .noChange .. => 0
  | .change amount _ => amount

/-- The output that returns the change, if there is one. -/
def Excess.outputs (script : Bytes) : Excess → List TxOut
  | .noChange .. => []
  | .change amount _ => [⟨amount, script⟩]

/-- What the results rely on: the database lists records under their own outpoint, and the selected
outputs are some of those offered; less the fee of spending each, they add up to the target and the
excess. -/
structure Bdk.Balanced (bdk : Bdk) : Prop where
  iterUtxos : ∀ w, ∀ utxo ∈ bdk.iterUtxos w, w.utxos.lookup utxo.outpoint = some utxo
  coinSelect : ∀ {utxos feeRate target script result},
    bdk.coinSelect [] utxos feeRate target script = some result →
    ∃ chosen : List WeightedUtxo, (∀ utxo ∈ chosen, utxo ∈ utxos) ∧
      result.selected = chosen.map (·.utxo) ∧
      (chosen.map (·.utxo.txout.value)).sum =
        (chosen.map (bdk.spendFee feeRate)).sum + target + result.excess.amount + result.excess.lost

/-- What the results on the shape of a payment rely on: the database lists records under their own
outpoint, and the selected outputs are some of those offered. -/
structure Bdk.Selects (bdk : Bdk) : Prop where
  iterUtxos : ∀ w, ∀ utxo ∈ bdk.iterUtxos w, w.utxos.lookup utxo.outpoint = some utxo
  coinSelect : ∀ {utxos feeRate target script result},
    bdk.coinSelect [] utxos feeRate target script = some result →
    ∀ utxo ∈ result.selected, ∃ offered ∈ utxos, offered.utxo = utxo

lemma Bdk.Balanced.selects {bdk : Bdk} (h : bdk.Balanced) : bdk.Selects where
  iterUtxos := h.iterUtxos
  coinSelect := by
    intro utxos feeRate target script result e utxo mem
    obtain ⟨chosen, hchosen, hselected, _⟩ := h.coinSelect e
    rw [hselected] at mem
    obtain ⟨offered, hoffered, rfl⟩ := List.mem_map.mp mem
    exact ⟨offered, hchosen offered hoffered, rfl⟩

/-! ## The payment -/

/-- The deduction of the fee from one peg-out. -/
def deductFee (feePerOutput : Nat) (output : TxOut) : Except (Fault FederationError) TxOut :=
  if output.value ≤ feePerOutput then
    .error (.error .feesExceedPegoutValue)
  else
    .ok { output with value := output.value - feePerOutput }

/-- The sum of the requested outputs, in `u64`. -/
def totalOutValue (output : List TxOut) : Except (Fault FederationError) Nat :=
  output.foldlM (fun sum out => checkedU64 (sum + out.value)) 0

/-- The outputs that are not spent, as they are offered to the coin selection. -/
def UtxoManager.spendable (bdk : Bdk) (satisfactionWeight : Nat) (w : UtxoManager) :
    List WeightedUtxo :=
  ((bdk.iterUtxos w).filter fun utxo => !utxo.isSpent).map fun utxo => ⟨satisfactionWeight, utxo⟩

/-- An unsigned input that spends an output (`Sequence::ENABLE_RBF_NO_LOCKTIME`). -/
def LocalUtxo.toInput (utxo : LocalUtxo) : TxIn := ⟨utxo.outpoint, [], 0xFFFFFFFD, []⟩

/-- `UtxoManager::create_payment`. A coin selection that fails is a panic, and so is the division
for an empty list of outputs. -/
def UtxoManager.createPayment (P : Primitives) (bdk : Bdk) (F : Federation)
    (satisfactionWeight : Nat) (w : UtxoManager) (output : List TxOut) (feeRate : FeeRate) :
    Except (Fault FederationError) Transaction := do
  let numPegouts := output.length
  let script := P.scriptPubkey F.taprootAddress
  let target ← totalOutValue output
  match bdk.coinSelect [] (w.spendable bdk satisfactionWeight) feeRate target script with
  | none => throw .panic
  | some selected =>
    let input := selected.selected.map LocalUtxo.toInput
    let output :=
      match selected.excess with
      | .change amount _ => output ++ [⟨amount, script⟩]
      | .noChange .. => output
    let totalWeight := bdk.weight ⟨2, 0, input, output⟩
    let totalFee := feeRate.feeWu totalWeight
    if numPegouts = 0 then
      throw .panic
    let feePerOutput := (totalFee + numPegouts - 1) / numPegouts
    let pegouts ← (output.take numPegouts).mapM (deductFee feePerOutput)
    return ⟨2, 0, input, pegouts ++ output.drop numPegouts⟩

/-! ## What it costs -/

/-- The value of the recorded outputs that a transaction spends. -/
def UtxoManager.inputValue (w : UtxoManager) (tx : Transaction) : Nat :=
  (tx.input.map fun input =>
    ((w.utxos.lookup input.previousOutput).map (·.txout.value)).getD 0).sum

/-- The value of the outputs of a transaction after the peg-outs: its change, if any. -/
def Transaction.changeValue (numPegouts : Nat) (tx : Transaction) : Nat :=
  ((tx.output.drop numPegouts).map (·.value)).sum

/-- The value of a list of outputs. -/
def outputValue (output : List TxOut) : Nat := (output.map (·.value)).sum

/-- What the coin selection sets aside: the fee of spending each input, and what is lost beyond the
target and the change. -/
def Bdk.setAside (bdk : Bdk) (feeRate : FeeRate) (satisfactionWeight : Nat)
    (result : CoinSelectionResult) : Nat :=
  result.selected.length * feeRate.feeWu (bdk.txinBaseWeight + satisfactionWeight) +
    result.excess.lost

lemma totalOutValue_ok {output : List TxOut} {target : Nat}
    (e : totalOutValue output = .ok target) : target = outputValue output := by
  refine foldlM_invariant (I := fun before sum => sum = outputValue before) e rfl ?_
  intro before out sum sum' hsum hnext
  rw [checkedU64_eq_ok hnext, hsum]
  simp [outputValue]

lemma deductFee_ok {feePerOutput : Nat} {out out' : TxOut}
    (e : deductFee feePerOutput out = .ok out') :
    out'.scriptPubkey = out.scriptPubkey ∧ out'.value ≤ out.value := by
  unfold deductFee at e
  split at e
  case isTrue => cases e
  case isFalse =>
    cases e
    exact ⟨rfl, Nat.sub_le _ _⟩

namespace UtxoManager

variable {P : Primitives} {bdk : Bdk} {F : Federation} {satisfactionWeight : Nat}
  {w : UtxoManager} {output : List TxOut} {feeRate : FeeRate} {tx : Transaction}

lemma mem_spendable (hbdk : bdk.Selects) {utxo : WeightedUtxo}
    (mem : utxo ∈ w.spendable bdk satisfactionWeight) :
    utxo.satisfactionWeight = satisfactionWeight ∧
      w.utxos.lookup utxo.utxo.outpoint = some utxo.utxo ∧ utxo.utxo.isSpent = false := by
  obtain ⟨utxo, hutxo, rfl⟩ := List.mem_map.mp mem
  obtain ⟨hutxo, unspent⟩ := List.mem_filter.mp hutxo
  exact ⟨rfl, hbdk.iterUtxos w utxo hutxo, by simpa using unspent⟩

/-- A payment spends what was selected, to the requested outputs less a fee and to the change. -/
lemma createPayment_shape
    (e : w.createPayment P bdk F satisfactionWeight output feeRate = .ok tx) :
    ∃ result feePerOutput pegouts,
      bdk.coinSelect [] (w.spendable bdk satisfactionWeight) feeRate (outputValue output)
        (P.scriptPubkey F.taprootAddress) = some result ∧
      output.mapM (deductFee feePerOutput) = .ok pegouts ∧
      tx = ⟨2, 0, result.selected.map LocalUtxo.toInput,
        pegouts ++ result.excess.outputs (P.scriptPubkey F.taprootAddress)⟩ := by
  simp only [createPayment, bind_eq_ok_iff] at e
  obtain ⟨target, htarget, e⟩ := e
  cases totalOutValue_ok htarget
  split at e
  case h_1 => cases e
  case h_2 result hresult =>
    simp only [guard_eq_ok_iff, bind_eq_ok_iff] at e
    obtain ⟨hpos, pegouts, hpegouts, e⟩ := e
    cases e
    obtain ⟨selected, excess⟩ := result
    cases excess with
    | noChange =>
      dsimp only at hpegouts
      rw [List.take_length] at hpegouts
      refine ⟨_, _, pegouts, hresult, hpegouts, ?_⟩
      rw [List.drop_length]
      rfl
    | change amount fee =>
      dsimp only at hpegouts
      rw [List.take_left] at hpegouts
      refine ⟨_, _, pegouts, hresult, hpegouts, ?_⟩
      rw [List.drop_left]
      rfl

/-- Deducting the fee keeps the number of peg-outs, so the change stands after them. -/
lemma createPayment_ok (e : w.createPayment P bdk F satisfactionWeight output feeRate = .ok tx) :
    ∃ result, bdk.coinSelect [] (w.spendable bdk satisfactionWeight) feeRate (outputValue output)
        (P.scriptPubkey F.taprootAddress) = some result ∧
      tx.input = result.selected.map LocalUtxo.toInput ∧
      tx.changeValue output.length = result.excess.amount := by
  obtain ⟨result, feePerOutput, pegouts, hresult, hpegouts, rfl⟩ := createPayment_shape e
  refine ⟨result, hresult, rfl, ?_⟩
  rw [Transaction.changeValue, List.drop_left' (forall₂_of_mapM_ok hpegouts).length_eq.symm]
  cases result.excess with
  | noChange => rfl
  | change amount fee => rfl

/-- The inputs of a payment are worth the requested outputs, the change and what the coin selection
sets aside. -/
lemma createPayment_inputValue (hbdk : bdk.Balanced)
    (e : w.createPayment P bdk F satisfactionWeight output feeRate = .ok tx) :
    ∃ result, bdk.coinSelect [] (w.spendable bdk satisfactionWeight) feeRate (outputValue output)
        (P.scriptPubkey F.taprootAddress) = some result ∧
      w.inputValue tx = tx.changeValue output.length + outputValue output +
        bdk.setAside feeRate satisfactionWeight result := by
  obtain ⟨result, hresult, hinput, hchange⟩ := createPayment_ok e
  obtain ⟨chosen, hchosen, hselected, hsum⟩ := hbdk.coinSelect hresult
  refine ⟨result, hresult, ?_⟩
  have hvalues : w.inputValue tx = (chosen.map (·.utxo.txout.value)).sum := by
    rw [inputValue, hinput, hselected, List.map_map, List.map_map]
    refine congrArg List.sum (List.map_congr_left fun utxo mem => ?_)
    have hlookup := (mem_spendable hbdk.selects (hchosen utxo mem)).2.1
    simp [LocalUtxo.toInput, hlookup]
  -- every spendable output has the same satisfaction weight, so each input costs the same fee
  have hfees : (chosen.map (bdk.spendFee feeRate)).sum =
      result.selected.length * feeRate.feeWu (bdk.txinBaseWeight + satisfactionWeight) := by
    rw [hselected, List.length_map]
    refine (congrArg List.sum (List.map_eq_replicate_iff.mpr fun utxo mem => ?_)).trans
      (List.sum_replicate_nat ..)
    rw [Bdk.spendFee, (mem_spendable hbdk.selects (hchosen utxo mem)).1]
  rw [hvalues, hsum, hfees, hchange, Bdk.setAside]
  omega

end UtxoManager

/-- A payment takes exactly the requested values from the federation if and only if the coin
selection sets nothing aside for fees and loses nothing. -/
theorem createPayment_solvent_iff {P : Primitives} {bdk : Bdk} {F : Federation}
    {satisfactionWeight : Nat} {w : UtxoManager} {output : List TxOut} {feeRate : FeeRate}
    {tx : Transaction} (hbdk : bdk.Balanced)
    (e : w.createPayment P bdk F satisfactionWeight output feeRate = .ok tx) :
    w.inputValue tx = tx.changeValue output.length + outputValue output ↔
      ∀ result, bdk.coinSelect [] (w.spendable bdk satisfactionWeight) feeRate (outputValue output)
        (P.scriptPubkey F.taprootAddress) = some result →
      bdk.setAside feeRate satisfactionWeight result = 0 := by
  obtain ⟨result, hresult, hvalue⟩ := UtxoManager.createPayment_inputValue hbdk e
  rw [hvalue, hresult]
  constructor
  · intro eq result' e'
    cases e'
    omega
  · intro h
    rw [h result rfl, Nat.add_zero]

/-! ## Closed instances -/

/-- A library for closed examples, with the weights of bdk 0.29.0 and of outputs to taproot scripts:
the database lists the record of one outpoint, and the coin selection takes everything and returns
change, whose output weighs 172. -/
def Bdk.toy : Bdk where
  iterUtxos w := ((w.utxos.lookup ⟨[1], 0⟩).toList).filter (·.outpoint = ⟨[1], 0⟩)
  coinSelect _ utxos feeRate target _ :=
    let value := (utxos.map (·.utxo.txout.value)).sum
    let fees := (utxos.map fun utxo => feeRate.feeWu (160 + utxo.satisfactionWeight)).sum
    let fee := feeRate.feeWu 172
    if fees + target + fee < value then
      some ⟨utxos.map (·.utxo), .change (value - (fees + target + fee)) fee⟩
    else
      none
  weight tx := 40 + 164 * tx.input.length + 172 * tx.output.length
  txinBaseWeight := 160

lemma Bdk.toy_balanced : Bdk.toy.Balanced where
  iterUtxos := by
    intro w utxo mem
    obtain ⟨mem, houtpoint⟩ := List.mem_filter.mp mem
    rw [of_decide_eq_true houtpoint]
    exact Option.mem_toList.mp mem
  coinSelect := by
    intro utxos feeRate target script result e
    simp only [Bdk.toy] at e
    split at e
    case isTrue enough =>
      cases e
      refine ⟨utxos, fun _ mem => mem, rfl, ?_⟩
      simp only [Excess.amount, Excess.lost]
      change _ = (utxos.map fun utxo => feeRate.feeWu (160 + utxo.satisfactionWeight)).sum + _ + _ +
        _
      omega
    case isFalse => cases e

/-- A wallet with one unspent output of 100000 satoshi. -/
def UtxoManager.toySaved : UtxoManager where
  utxos := Finmap.singleton ⟨[1], 0⟩ ⟨⟨100000, [0x51]⟩, ⟨[1], 0⟩, false⟩
  rawTxs := ∅

/-- A payment of 50000 satoshi from it, with the change and the fee that is deducted. -/
def Transaction.toyPayment (change fee : Nat) : Transaction where
  version := 2
  lockTime := 0
  input := [⟨⟨[1], 0⟩, [], 0xFFFFFFFD, []⟩]
  output := [⟨50000 - fee, [9]⟩, ⟨change, [0x51]⟩]

/-- Without fees the federation pays what was requested. -/
theorem createPayment_solvent_free :
    UtxoManager.toySaved.inputValue (.toyPayment 50000 0) =
      (Transaction.toyPayment 50000 0).changeValue 1 + outputValue [⟨50000, [9]⟩] := by
  have e : UtxoManager.toySaved.createPayment .toy .toy .toy 100 [⟨50000, [9]⟩] ⟨fun _ => 0⟩ =
      .ok (.toyPayment 50000 0) := rfl
  apply (createPayment_solvent_iff Bdk.toy_balanced e).mpr
  intro result hresult
  have hselected : Bdk.toy.coinSelect [] (UtxoManager.toySaved.spendable .toy 100) ⟨fun _ => 0⟩
      (outputValue [⟨50000, [9]⟩]) [0x51] =
      some ⟨[⟨⟨100000, [0x51]⟩, ⟨[1], 0⟩, false⟩], .change 50000 0⟩ := by decide +kernel
  rw [← Option.some.inj (hselected.symm.trans hresult)]
  rfl

/-- With a fee of one satoshi per weight unit, a payment of 50000 satoshi takes 50432 from the
federation: the fee of the input and that of the change come on top of what the peg-out pays. -/
theorem createPayment_solvent_fails :
    ¬ ∀ (P : Primitives) (bdk : Bdk) (F : Federation) (satisfactionWeight : Nat) (w : UtxoManager)
      (output : List TxOut) (feeRate : FeeRate) (tx : Transaction), bdk.Balanced → output ≠ [] →
      w.createPayment P bdk F satisfactionWeight output feeRate = .ok tx →
      w.inputValue tx = tx.changeValue output.length + outputValue output := by
  intro all
  have e : UtxoManager.toySaved.createPayment .toy .toy .toy 100 [⟨50000, [9]⟩] ⟨id⟩ =
      .ok (.toyPayment 49568 548) := rfl
  have solvent := all _ _ _ _ _ _ _ _ Bdk.toy_balanced (by decide) e
  revert solvent
  decide

end Alys
