import Alys.Federation.Balance
import Alys.Federation.Payment
import Mathlib.Data.List.TakeWhile

/-!
# Peg-outs and the wallet

How `create_payment`, `check_payment_proposal`, `register_pegout` and `get_balance` of
`crates/federation/src/bitcoin_signing.rs` agree. A payment that the wallet creates is one that it
accepts (`createPayment_accepted`). Accepting checks each input on its own, so a proposal may list
an input twice, and registering marks it once (`registerPegout_balance_iff`). Registering stores the
transaction and marks the inputs one after the other, so a failure in the middle leaves what was
written before it (`registerPegout_atomic_iff`).
-/

namespace Alys
open Lib

/-! ## Records -/

namespace UtxoManager

/-- The wallet records an output as spent. -/
def IsSpent (w : UtxoManager) (o : OutPoint) : Prop :=
  ∃ utxo, w.utxos.lookup o = some utxo ∧ utxo.isSpent = true

variable {w : UtxoManager} {utxos : List LocalUtxo}

lemma isSpent_setUtxo {utxo o} :
    (w.setUtxo utxo).IsSpent o ↔
      o = utxo.outpoint ∧ utxo.isSpent = true ∨ o ≠ utxo.outpoint ∧ w.IsSpent o := by
  unfold IsSpent setUtxo
  by_cases eq : o = utxo.outpoint
  · subst eq
    simp [Finmap.lookup_insert]
  · simp [Finmap.lookup_insert_of_ne _ eq, eq]

/-- Registering unspent outputs resets their records and leaves the others. -/
lemma isSpent_registerUtxos {o} (hu : ∀ utxo ∈ utxos, utxo.isSpent = false) :
    (w.registerUtxos utxos).IsSpent o ↔ w.IsSpent o ∧ o ∉ utxos.map (·.outpoint) := by
  unfold registerUtxos
  induction utxos generalizing w with
  | nil => simp
  | cons utxo utxos ih =>
    rw [List.forall_mem_cons] at hu
    rw [List.foldl_cons, ih hu.2, isSpent_setUtxo, hu.1]
    simp only [List.map_cons, List.mem_cons, not_or]
    tauto

/-- Registering unspent outputs makes them spendable and leaves the others. -/
lemma hasSpendableUtxo_registerUtxos {o} (hu : ∀ utxo ∈ utxos, utxo.isSpent = false) :
    (w.registerUtxos utxos).hasSpendableUtxo o = true ↔
      w.hasSpendableUtxo o = true ∨ o ∈ utxos.map (·.outpoint) := by
  unfold registerUtxos
  induction utxos generalizing w with
  | nil => simp
  | cons utxo utxos ih =>
    rw [List.forall_mem_cons] at hu
    rw [List.foldl_cons, ih hu.2]
    unfold hasSpendableUtxo setUtxo
    by_cases eq : o = utxo.outpoint
    · subst eq
      simp [Finmap.lookup_insert, hu.1]
    · simp [Finmap.lookup_insert_of_ne _ eq, eq]

lemma not_isSpent_of_hasSpendableUtxo {o} (h : w.hasSpendableUtxo o = true) :
    ¬ w.IsSpent o := by
  rintro ⟨utxo, e, hs⟩
  simp [hasSpendableUtxo, e, hs] at h

/-- Every record is stored under its own output. -/
def Coherent (w : UtxoManager) : Prop := ∀ o utxo, w.utxos.lookup o = some utxo → utxo.outpoint = o

lemma coherent_empty : empty.Coherent := fun _ _ e => by cases e

lemma Coherent.setUtxo {utxo} (h : w.Coherent) : (w.setUtxo utxo).Coherent := by
  intro o utxo' e
  rcases lookup_insert_eq_some.mp e with ⟨rfl, rfl⟩ | ⟨_, e⟩
  · rfl
  · exact h o utxo' e

lemma Coherent.registerUtxos (h : w.Coherent) :
    (w.registerUtxos utxos).Coherent := by
  unfold UtxoManager.registerUtxos
  induction utxos generalizing w with
  | nil => exact h
  | cons utxo utxos ih => exact ih h.setUtxo

variable {P : Primitives} {F : Federation} {w : UtxoManager} {tx : Transaction}

/-! ## The check of a proposal -/

/-- Without a bridge every input has to be recorded as unspent. -/
lemma checkInput_none (missingUtxos : List LocalUtxo) (input : TxIn) :
    checkInput P F none w missingUtxos input =
      if w.hasSpendableUtxo input.previousOutput then .ok (missingUtxos ++ [])
      else .error .unspendableInput := by
  rw [List.append_nil]
  rfl

/-- The check of a node without a connection to Bitcoin. -/
lemma checkPaymentProposal_none_iff {requiredOutputs : List TxOut} {missingUtxos : List LocalUtxo} :
    w.checkPaymentProposal P F requiredOutputs (some tx) none = .ok missingUtxos ↔
      checkOutputs P F requiredOutputs tx.output = .ok () ∧
      (∀ input ∈ tx.input, w.hasSpendableUtxo input.previousOutput) ∧
      (tx.lockTime = 0 ∧ tx.version = 2) ∧ missingUtxos = [] := by
  simp only [checkPaymentProposal, bind_eq_ok_iff, guard_eq_ok_iff, foldlM_collect checkInput_none,
    not_or, not_not]
  constructor
  · rintro ⟨_, houtputs, missing, hinputs, hheader, e⟩
    split at hinputs
    case isTrue h =>
      cases hinputs
      cases e
      exact ⟨houtputs, h, hheader, by simp⟩
    case isFalse => cases hinputs
  · rintro ⟨houtputs, hinputs, hheader, rfl⟩
    refine ⟨(), houtputs, [], ?_, hheader, rfl⟩
    rw [if_pos hinputs]
    simp

/-- Outputs as required, of at most the required values, and the change. -/
lemma checkOutputs_ok {requiredOutputs pegouts : List TxOut} {excess : Excess}
    (h : List.Forall₂ (fun required actual : TxOut =>
      actual.scriptPubkey = required.scriptPubkey ∧ actual.value ≤ required.value)
      requiredOutputs pegouts) :
    checkOutputs P F requiredOutputs
      (pegouts ++ excess.outputs (P.scriptPubkey F.taprootAddress)) = .ok () := by
  obtain ⟨hlength, hpairs⟩ := List.forall₂_iff_zip.mp h
  have hzip : requiredOutputs.zip (pegouts ++ excess.outputs (P.scriptPubkey F.taprootAddress)) =
      requiredOutputs.zip pegouts := by
    conv_lhs => rw [← List.append_nil requiredOutputs]
    rw [List.zip_append hlength, List.zip_nil_left, List.append_nil]
  have hany : (requiredOutputs.zip pegouts).any (fun x =>
      x.1.scriptPubkey ≠ x.2.scriptPubkey || x.1.value < x.2.value) = false := by
    rw [List.any_eq_false]
    rintro ⟨required, actual⟩ mem
    have hpair := hpairs mem
    simp [hpair.1, hpair.2]
  unfold checkOutputs
  rw [hzip, hany]
  cases excess with
  | noChange => simp [Excess.outputs, hlength, pure, Except.pure]
  | change amount fee => simp [Excess.outputs, hlength, pure, Except.pure]

end UtxoManager

/-- A payment that the wallet creates is a proposal that it accepts, with nothing missing. -/
theorem createPayment_accepted {P : Primitives} {bdk : Bdk} {F : Federation}
    {satisfactionWeight : Nat} {w : UtxoManager} {required : List TxOut} {feeRate : FeeRate}
    {tx : Transaction} (hbdk : bdk.Selects)
    (e : w.createPayment P bdk F satisfactionWeight required feeRate = .ok tx) :
    w.checkPaymentProposal P F required (some tx) none = .ok [] := by
  obtain ⟨result, feePerOutput, pegouts, hresult, hpegouts, rfl⟩ :=
    UtxoManager.createPayment_shape e
  refine UtxoManager.checkPaymentProposal_none_iff.mpr ⟨?_, fun input mem => ?_, ⟨rfl, rfl⟩, rfl⟩
  · exact UtxoManager.checkOutputs_ok ((forall₂_of_mapM_ok hpegouts).imp fun _ _ => deductFee_ok)
  · obtain ⟨utxo, hutxo, rfl⟩ := List.mem_map.mp mem
    obtain ⟨offered, hoffered, rfl⟩ := hbdk.coinSelect hresult utxo hutxo
    obtain ⟨_, hlookup, unspent⟩ := UtxoManager.mem_spendable hbdk hoffered
    simp [UtxoManager.hasSpendableUtxo, LocalUtxo.toInput, hlookup, unspent]

/-- A payment of 50000 satoshi with the change of a wallet with one output. -/
theorem createPayment_accepted_change :
    UtxoManager.toySaved.checkPaymentProposal .toy .toy [⟨50000, [9]⟩]
      (some (.toyPayment 49568 548)) none = .ok [] := by
  have e : UtxoManager.toySaved.createPayment .toy .toy .toy 100 [⟨50000, [9]⟩] ⟨id⟩ =
      .ok (.toyPayment 49568 548) := rfl
  exact createPayment_accepted Bdk.toy_balanced.selects e

/-! ## Registering -/

section Spent

variable {m : Map OutPoint LocalUtxo} {o o' : OutPoint} {os : List OutPoint}

/-- What marking an input does to the records, if it has one. -/
def markSpentAt (m : Map OutPoint LocalUtxo) (o : OutPoint) : Map OutPoint LocalUtxo :=
  match m.lookup o with
  | none => m
  | some utxo => m.insert o { utxo with isSpent := true }

/-- The value of an output that is recorded as unspent. -/
def unspentAt (m : Map OutPoint LocalUtxo) (o : OutPoint) : Nat :=
  ((m.lookup o).map fun utxo => if !utxo.isSpent then utxo.txout.value else 0).getD 0

lemma lookup_markSpentAt :
    (markSpentAt m o).lookup o' =
      if o' = o then (m.lookup o).map fun utxo => { utxo with isSpent := true }
      else m.lookup o' := by
  unfold markSpentAt
  by_cases e : o' = o
  · subst e
    rw [if_pos rfl]
    split
    case h_1 hlookup => rw [hlookup, Option.map_none]
    case h_2 utxo hlookup => rw [Finmap.lookup_insert, hlookup, Option.map_some]
  · rw [if_neg e]
    split
    case h_1 => rfl
    case h_2 => rw [Finmap.lookup_insert_of_ne _ e]

lemma lookup_markSpent :
    (os.foldl markSpentAt m).lookup o =
      if o ∈ os then (m.lookup o).map fun utxo => { utxo with isSpent := true }
      else m.lookup o := by
  induction os generalizing m with
  | nil => rfl
  | cons o' os ih =>
    rw [List.foldl_cons, ih, lookup_markSpentAt]
    by_cases e : o = o'
    · subst e
      simp only [if_true, List.mem_cons_self, Option.map_map, ite_eq_right_iff]
      exact fun _ => rfl
    · simp only [e, if_false, List.mem_cons, false_or]

lemma mem_markSpent : o ∈ os.foldl markSpentAt m ↔ o ∈ m := by
  rw [← Finmap.lookup_isSome, ← Finmap.lookup_isSome, lookup_markSpent]
  split
  case isTrue => rw [Option.isSome_map]
  case isFalse => rfl

/-- Marking changes nothing if and only if every record is marked. -/
lemma markSpent_eq_self_iff :
    os.foldl markSpentAt m = m ↔
      ∀ o ∈ os, ∀ utxo, m.lookup o = some utxo → utxo.isSpent = true := by
  constructor
  · intro e o mem utxo hlookup
    have h : (os.foldl markSpentAt m).lookup o = some utxo := by rw [e, hlookup]
    rw [lookup_markSpent, if_pos mem, hlookup, Option.map_some] at h
    exact (congrArg LocalUtxo.isSpent (Option.some.inj h)).symm
  · intro h
    refine Finmap.ext_lookup fun o => ?_
    rw [lookup_markSpent]
    split
    case isTrue mem =>
      cases hlookup : m.lookup o with
      | none => rfl
      | some utxo => rw [Option.map_some, ← h o mem utxo hlookup]
    case isFalse => rfl

lemma unspentAt_markSpentAt :
    unspentAt (markSpentAt m o) o' = if o' = o then 0 else unspentAt m o' := by
  unfold unspentAt
  rw [lookup_markSpentAt]
  split
  case isTrue => cases m.lookup o <;> rfl
  case isFalse => rfl

lemma tally_markSpentAt :
    tally (fun utxo => !utxo.isSpent) (·.txout.value) (markSpentAt m o) + unspentAt m o =
      tally (fun utxo => !utxo.isSpent) (·.txout.value) m := by
  unfold markSpentAt unspentAt
  split
  case h_1 hlookup => rw [hlookup, Option.map_none, Option.getD_none, Nat.add_zero]
  case h_2 utxo hlookup =>
    rw [tally_of_lookup hlookup, tally_write, hlookup, Option.map_some, Option.getD_some,
      Nat.add_comm]
    simp

/-- Marking outputs takes the value of each that was unspent from the balance, once. -/
lemma tally_markSpent :
    tally (fun utxo => !utxo.isSpent) (·.txout.value) (os.foldl markSpentAt m) +
        ∑ o ∈ os.toFinset, unspentAt m o =
      tally (fun utxo => !utxo.isSpent) (·.txout.value) m := by
  induction os generalizing m with
  | nil => simp
  | cons o os ih =>
    -- after its first occurrence an output is no longer unspent
    have hsum : unspentAt m o + ∑ o' ∈ os.toFinset, unspentAt (markSpentAt m o) o' =
        ∑ o' ∈ (o :: os).toFinset, unspentAt m o' := by
      have hzero : unspentAt (markSpentAt m o) o = 0 := by rw [unspentAt_markSpentAt, if_pos rfl]
      rw [List.toFinset_cons, ← Finset.add_sum_erase _ _ (Finset.mem_insert_self o _),
        Finset.erase_insert_eq_erase, ← Finset.sum_erase _ hzero]
      refine congrArg _ (Finset.sum_congr rfl fun o' mem => ?_)
      rw [unspentAt_markSpentAt, if_neg (Finset.ne_of_mem_erase mem)]
    rw [List.foldl_cons, ← hsum, ← tally_markSpentAt (m := m) (o := o), ← ih (m := markSpentAt m o)]
    omega

end Spent

namespace UtxoManager

variable {P : Primitives} {F : Federation} {w : UtxoManager} {tx : Transaction}

/-- The loop over the inputs marks those before the first without a record, and fails if there is
one. -/
lemma forEach_markSpent_eq (hw : w.Coherent) (inputs : List TxIn) :
    Action.forEach inputs markSpent w =
      (if ∀ input ∈ inputs, input.previousOutput ∈ w.utxos then .ok () else .error .dbError,
        { w with
          utxos := ((inputs.map (·.previousOutput)).takeWhile (· ∈ w.utxos)).foldl markSpentAt
            w.utxos }) := by
  induction inputs generalizing w with
  | nil => rfl
  | cons input inputs ih =>
    rw [Action.forEach, Action.bind_apply, markSpent]
    cases hlookup : w.utxos.lookup input.previousOutput with
    | none =>
      have hnew : input.previousOutput ∉ w.utxos := Finmap.lookup_eq_none.mp hlookup
      simp [hnew]
    | some utxo =>
      have hmem : input.previousOutput ∈ w.utxos := Finmap.mem_of_lookup_eq_some hlookup
      have hset : w.setUtxo { utxo with isSpent := true } =
          { w with utxos := markSpentAt w.utxos input.previousOutput } := by
        simp only [setUtxo, markSpentAt, hlookup, hw _ _ hlookup]
      have hkeys : ∀ o, o ∈ [input.previousOutput].foldl markSpentAt w.utxos ↔ o ∈ w.utxos :=
        fun o => mem_markSpent
      rw [List.foldl_cons, List.foldl_nil] at hkeys
      have hw' : ({ w with utxos := markSpentAt w.utxos input.previousOutput } :
        UtxoManager).Coherent := hset ▸ hw.setUtxo
      simp only [hset, ih hw', hkeys, List.forall_mem_cons, hmem, true_and, List.map_cons,
        List.takeWhile_cons, decide_true, if_true, List.foldl_cons]

/-- What registering a peg-out does: it stores the transaction, then marks the inputs as the loop
does, and registers the outputs if all of them were marked. -/
lemma registerPegout_eq (hw : w.Coherent) :
    registerPegout P F tx w =
      let marked : UtxoManager :=
        ⟨((tx.input.map (·.previousOutput)).takeWhile (· ∈ w.utxos)).foldl markSpentAt w.utxos,
          w.rawTxs.insert (P.txid tx) tx⟩
      if ∀ input ∈ tx.input, input.previousOutput ∈ w.utxos then
        (.ok (), marked.registerOutputsFrom P F tx)
      else
        (.error .dbError, marked) := by
  have hraw : (w.setRawTx P tx).Coherent := hw
  simp only [registerPegout, Action.bind_apply, Action.modify_apply, forEach_markSpent_eq hraw]
  have hutxos : (w.setRawTx P tx).utxos = w.utxos := rfl
  rw [hutxos]
  by_cases h : ∀ input ∈ tx.input, input.previousOutput ∈ w.utxos
  · rw [if_pos h, if_pos h]
    rfl
  · rw [if_neg h, if_neg h]
    rfl

lemma mem_of_hasSpendableUtxo {o : OutPoint} (h : w.hasSpendableUtxo o = true) : o ∈ w.utxos := by
  rw [hasSpendableUtxo] at h
  cases hlookup : w.utxos.lookup o with
  | none => simp [hlookup] at h
  | some utxo => exact Finmap.mem_of_lookup_eq_some hlookup

/-- The inputs of an accepted proposal are worth what is unspent at each. -/
lemma inputValue_eq (h : ∀ input ∈ tx.input, w.hasSpendableUtxo input.previousOutput) :
    w.inputValue tx = ((tx.input.map (·.previousOutput)).map (unspentAt w.utxos)).sum := by
  rw [inputValue, List.map_map]
  refine congrArg List.sum (List.map_congr_left fun input mem => ?_)
  have hinput := h input mem
  simp only [hasSpendableUtxo, Function.comp_apply, unspentAt] at hinput ⊢
  cases hlookup : w.utxos.lookup input.previousOutput with
  | none => rfl
  | some utxo =>
    rw [hlookup, Option.map_some, Option.getD_some] at hinput
    rw [Option.map_some, Option.map_some, Option.getD_some, Option.getD_some, if_pos hinput]

/-- A peg-out whose inputs are all recorded is registered. Each input that was unspent leaves the
balance once, and the outputs to the federation enter it. -/
lemma registerPegout_recorded (hw : w.Coherent)
    (recorded : ∀ input ∈ tx.input, input.previousOutput ∈ w.utxos)
    (fresh : ∀ vout, ⟨P.txid tx, vout⟩ ∉ w.utxos) :
    ∃ w', registerPegout P F tx w = (.ok (), w') ∧
      tally (fun utxo => !utxo.isSpent) (·.txout.value) w'.utxos +
          ∑ o ∈ (tx.input.map (·.previousOutput)).toFinset, unspentAt w.utxos o =
        tally (fun utxo => !utxo.isSpent) (·.txout.value) w.utxos +
          outputValue (depositOutputs P F tx) := by
  have hall : (tx.input.map (·.previousOutput)).takeWhile (· ∈ w.utxos) =
      tx.input.map (·.previousOutput) := by
    rw [List.takeWhile_eq_self_iff, List.forall_mem_map]
    exact fun input mem => decide_eq_true (recorded input mem)
  rw [registerPegout_eq hw]
  simp only [if_pos recorded, hall]
  refine ⟨_, rfl, ?_⟩
  rw [tally_registerOutputsFrom fun vout => mt mem_markSpent.mp (fresh vout), Nat.add_right_comm,
    tally_markSpent, outputValue]

end UtxoManager

/-- An accepted peg-out with a new hash is registered. The balance then changes by the outputs to
the federation less the inputs if and only if no input with a value is listed twice and the new
balance is in the range of `u64`. -/
theorem registerPegout_balance_iff {P : Primitives} {F : Federation} {w : UtxoManager}
    {required : List TxOut} {tx : Transaction} {missing : List LocalUtxo} {before : Nat}
    (hw : w.Coherent)
    (hcheck : w.checkPaymentProposal P F required (some tx) none = .ok missing)
    (fresh : ∀ vout, ⟨P.txid tx, vout⟩ ∉ w.utxos) (hbefore : w.getBalance = .ok before) :
    ∃ w', UtxoManager.registerPegout P F tx w = (.ok (), w') ∧
      ((∃ after, w'.getBalance = .ok after ∧
          after + w.inputValue tx = before + outputValue (depositOutputs P F tx)) ↔
        (∀ o, 1 < (tx.input.map (·.previousOutput)).count o → unspentAt w.utxos o = 0) ∧
          before + outputValue (depositOutputs P F tx) < 2 ^ 64 + w.inputValue tx) := by
  obtain ⟨_, hinputs, _, _⟩ := UtxoManager.checkPaymentProposal_none_iff.mp hcheck
  obtain ⟨w', e, hbalance⟩ := UtxoManager.registerPegout_recorded (F := F) hw
    (fun input mem => UtxoManager.mem_of_hasSpendableUtxo (hinputs input mem)) fresh
  refine ⟨w', e, ?_⟩
  rw [← checkedU64_eq_ok hbefore] at hbalance
  rw [← sum_map_eq_distinct_iff, ← UtxoManager.inputValue_eq hinputs]
  constructor
  · rintro ⟨after, hafter, hsum⟩
    have lt := checkedU64_lt hafter
    rw [← checkedU64_eq_ok hafter] at lt hbalance
    omega
  · rintro ⟨distinct, lt⟩
    refine ⟨_, checkedU64_of_lt ?_, ?_⟩
    · omega
    · omega

/-- A transaction that spends the output of `toySaved` as often as it is told. -/
def Transaction.toySpend (times : Nat) : Transaction where
  version := 2
  lockTime := 0
  input := List.replicate times ⟨⟨[1], 0⟩, [], 0xFFFFFFFD, []⟩
  output := [⟨50000, [9]⟩, ⟨40000, [0x51]⟩]

lemma UtxoManager.toySaved_coherent : UtxoManager.toySaved.Coherent := by
  intro o utxo e
  have mem : o ∈ UtxoManager.toySaved.utxos := Finmap.mem_of_lookup_eq_some e
  cases Finmap.mem_singleton _ _ _ |>.mp mem
  cases Option.some.inj ((Finmap.lookup_singleton_eq ..).symm.trans e)
  rfl

lemma UtxoManager.toySaved_fresh {txid : Txid} (ne : txid ≠ [1]) (vout : Nat) :
    ⟨txid, vout⟩ ∉ UtxoManager.toySaved.utxos := by
  intro mem
  exact ne (OutPoint.mk.inj (Finmap.mem_singleton _ _ _ |>.mp mem)).1

/-- The output is listed once. -/
theorem registerPegout_balance_once :
    ∃ w', UtxoManager.registerPegout .toy .toy (.toySpend 1) .toySaved = (.ok (), w') ∧
      ∃ after, w'.getBalance = .ok after ∧ after + 100000 = 100000 + 40000 := by
  have hcheck : UtxoManager.toySaved.checkPaymentProposal .toy .toy [⟨50000, [9]⟩]
      (some (.toySpend 1)) none = .ok [] := rfl
  have hbefore : UtxoManager.toySaved.getBalance = .ok 100000 := rfl
  obtain ⟨w', e, hiff⟩ := registerPegout_balance_iff UtxoManager.toySaved_coherent hcheck
    (UtxoManager.toySaved_fresh (by decide)) hbefore
  refine ⟨w', e, hiff.mpr ⟨fun o lt => ?_, by decide⟩⟩
  exact absurd lt (Nat.not_lt.mpr List.count_le_length)

/-- The output is listed twice: it leaves the balance once. -/
theorem registerPegout_balance_fails :
    ¬ ∀ (P : Primitives) (F : Federation) (w : UtxoManager) (required : List TxOut)
      (tx : Transaction) (missing : List LocalUtxo) (before : Nat), w.Coherent →
      w.checkPaymentProposal P F required (some tx) none = .ok missing →
      (∀ vout, ⟨P.txid tx, vout⟩ ∉ w.utxos) → P.txid tx ∉ w.rawTxs → w.getBalance = .ok before →
      ∃ w' after, UtxoManager.registerPegout P F tx w = (.ok (), w') ∧
        w'.getBalance = .ok after ∧
        after + w.inputValue tx = before + outputValue (depositOutputs P F tx) := by
  intro all
  obtain ⟨w', after, e, hafter, hsum⟩ := all .toy .toy .toySaved [⟨50000, [9]⟩] (.toySpend 2) []
    100000 UtxoManager.toySaved_coherent rfl (UtxoManager.toySaved_fresh (by decide))
    Finmap.notMem_empty rfl
  have hbalance : (UtxoManager.registerPegout .toy .toy (.toySpend 2)
      .toySaved).2.getBalance = .ok 40000 := rfl
  rw [e] at hbalance
  cases hafter.symm.trans hbalance
  exact absurd hsum (by decide)

/-- Registering a peg-out is atomic if and only if every input is recorded, or the transaction is
stored and the inputs before the first that is not recorded are spent: then there is nothing to
write. -/
theorem registerPegout_atomic_iff {P : Primitives} {F : Federation} {w : UtxoManager}
    {tx : Transaction} (hw : w.Coherent) :
    (∀ e, (UtxoManager.registerPegout P F tx w).1 = .error e →
        (UtxoManager.registerPegout P F tx w).2 = w) ↔
      (∀ input ∈ tx.input, input.previousOutput ∈ w.utxos) ∨
        w.rawTxs.lookup (P.txid tx) = some tx ∧
          ∀ o ∈ (tx.input.map (·.previousOutput)).takeWhile (· ∈ w.utxos), w.IsSpent o := by
  rw [UtxoManager.registerPegout_eq hw]
  by_cases recorded : ∀ input ∈ tx.input, input.previousOutput ∈ w.utxos
  · simp only [if_pos recorded]
    exact iff_of_true nofun (.inl recorded)
  · simp only [recorded, if_false, false_or]
    constructor
    · intro h
      have e := h .dbError rfl
      refine ⟨insert_eq_self_iff.mp (congrArg UtxoManager.rawTxs e), fun o mem => ?_⟩
      have hmem := List.mem_takeWhile_imp mem
      rw [decide_eq_true_iff] at hmem
      obtain ⟨utxo, hlookup⟩ := Option.isSome_iff_exists.mp (Finmap.lookup_isSome.mpr hmem)
      have hself := markSpent_eq_self_iff.mp (congrArg UtxoManager.utxos e)
      exact ⟨utxo, hlookup, hself o mem utxo hlookup⟩
    · rintro ⟨hraw, hspent⟩ _ _
      have hself := markSpent_eq_self_iff.mpr fun o mem utxo hlookup => by
        obtain ⟨utxo', hlookup', spent⟩ := hspent o mem
        cases hlookup.symm.trans hlookup'
        exact spent
      rw [insert_eq_self_iff.mpr hraw, hself]

/-- Every input is recorded. -/
theorem registerPegout_atomic_recorded :
    UtxoManager.toySaved.Coherent ∧
      ∀ e, (UtxoManager.registerPegout .toy .toy (.toySpend 1) .toySaved).1 = .error e →
        (UtxoManager.registerPegout .toy .toy (.toySpend 1) .toySaved).2 = .toySaved :=
  ⟨UtxoManager.toySaved_coherent,
    (registerPegout_atomic_iff UtxoManager.toySaved_coherent).mpr (.inl (by decide))⟩

/-- A transaction that spends the output of `toySaved` and one that is not recorded. -/
def Transaction.toyUnrecorded : Transaction :=
  ⟨2, 0, [⟨⟨[1], 0⟩, [], 0xFFFFFFFD, []⟩, ⟨⟨[2], 0⟩, [], 0xFFFFFFFD, []⟩], [⟨50000, [9]⟩]⟩

/-- The second input is not recorded: the transaction stays stored, and the output of the first
input spent. -/
theorem registerPegout_atomic_fails :
    ¬ ∀ (P : Primitives) (F : Federation) (w : UtxoManager) (tx : Transaction)
      (e : FederationError), w.Coherent → (UtxoManager.registerPegout P F tx w).1 = .error e →
      (UtxoManager.registerPegout P F tx w).2 = w := by
  intro all
  have same := all .toy .toy .toySaved .toyUnrecorded .dbError UtxoManager.toySaved_coherent rfl
  have spendable := congrArg (UtxoManager.hasSpendableUtxo · ⟨[1], 0⟩) same
  exact absurd spendable (by decide)

end Alys
