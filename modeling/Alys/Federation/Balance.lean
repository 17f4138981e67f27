import Alys.Federation.Wallet
import Alys.Lib.Tally
import Mathlib.Data.List.Sigma

/-!
# Deposits and the balance

Model of `UtxoManager::get_balance` in `crates/federation/src/bitcoin_signing.rs`, and how it agrees
with the amount that the bridge reports for a deposit. The bridge looks for the first output to the
deposit address (`pegin_info`), the wallet records all of them (`register_pegin`): the balance grows
by more than what is minted if a further output has a value.
-/

namespace Alys
open Lib

/-- `UtxoManager::get_balance`: the values of the records that are not spent, in `u64`. The sum
overflows in every order of the records or in none. -/
def UtxoManager.getBalance (w : UtxoManager) : Except (Fault FederationError) Nat :=
  checkedU64 (tally (fun utxo => !utxo.isSpent) (·.txout.value) w.utxos)

/-- The outputs of a transaction to the federation. -/
def depositOutputs (P : Primitives) (F : Federation) (tx : Transaction) : List TxOut :=
  tx.output.filter fun txout => P.matchesScriptPubkey F.taprootAddress txout.scriptPubkey

section Deposit

variable {P : Primitives} {F : Federation} {tx : Transaction}

lemma mem_outputsToFederation {utxo : LocalUtxo}
    (mem : utxo ∈ UtxoManager.outputsToFederation P F tx) :
    utxo.outpoint.txid = P.txid tx ∧ utxo.isSpent = false := by
  obtain ⟨⟨txout, vout⟩, _, e⟩ := List.mem_filterMap.mp mem
  dsimp only at e
  split at e
  case isTrue =>
    cases e
    exact ⟨rfl, rfl⟩
  case isFalse => cases e

/-- The records of a transaction are those of the outputs to the federation. -/
lemma map_txout_outputsToFederation :
    (UtxoManager.outputsToFederation P F tx).map (·.txout) = depositOutputs P F tx := by
  have hbody : ∀ x ∈ tx.output.zipIdx,
      (if P.matchesScriptPubkey F.taprootAddress x.1.scriptPubkey then
        some (⟨x.1, ⟨P.txid tx, x.2⟩, false⟩ : LocalUtxo) else none).map (·.txout) =
      (Option.guard (fun txout : TxOut =>
        P.matchesScriptPubkey F.taprootAddress txout.scriptPubkey) ∘ Prod.fst) x := by
    intro x _
    simp only [Function.comp_apply, Option.guard]
    split
    case isTrue => rfl
    case isFalse => rfl
  rw [UtxoManager.outputsToFederation, List.map_filterMap, List.filterMap_congr hbody,
    ← List.filterMap_map, List.zipIdx_map_fst, List.filterMap_eq_filter]
  rfl

/-- They have different outpoints. -/
lemma nodup_outpoints :
    ((UtxoManager.outputsToFederation P F tx).map (·.outpoint)).Nodup := by
  have hsnd := List.nodup_zipIdx_map_snd tx.output
  rw [List.Nodup, List.pairwise_map] at hsnd
  rw [List.Nodup, List.pairwise_map, UtxoManager.outputsToFederation, List.pairwise_filterMap]
  refine hsnd.imp fun {x y} hne utxo hx utxo' hy same => ?_
  dsimp only at hx hy
  split at hx
  case isFalse => cases hx
  split at hy
  case isFalse => cases hy
  cases hx
  cases hy
  exact hne (OutPoint.mk.inj same).2

lemma utxos_registerUtxos {utxos : List LocalUtxo} {w : UtxoManager} :
    (w.registerUtxos utxos).utxos =
      utxos.foldl (fun m utxo => m.insert utxo.outpoint utxo) w.utxos := by
  induction utxos generalizing w with
  | nil => rfl
  | cons utxo utxos ih => exact ih

/-- A transaction with a new hash adds the values of its outputs to the federation. -/
lemma tally_registerOutputsFrom {w : UtxoManager}
    (fresh : ∀ vout, ⟨P.txid tx, vout⟩ ∉ w.utxos) :
    tally (fun utxo => !utxo.isSpent) (·.txout.value) (w.registerOutputsFrom P F tx).utxos =
      tally (fun utxo => !utxo.isSpent) (·.txout.value) w.utxos +
        ((depositOutputs P F tx).map (·.value)).sum := by
  have new : ∀ utxo ∈ UtxoManager.outputsToFederation P F tx, utxo.outpoint ∉ w.utxos := by
    intro utxo mem
    have h := fresh utxo.outpoint.vout
    rwa [← (mem_outputsToFederation mem).1] at h
  have unspent : ∀ utxo ∈ UtxoManager.outputsToFederation P F tx, !utxo.isSpent := by
    intro utxo mem
    rw [(mem_outputsToFederation mem).2]
    rfl
  rw [UtxoManager.registerOutputsFrom, utxos_registerUtxos]
  refine (tally_insertAll new nodup_outpoints unspent).trans ?_
  rw [← map_txout_outputsToFederation, List.map_map]
  rfl

/-- The bridge reports the value of the first output to the federation. -/
lemma Bridge.peginInfo_amount {B : Bridge} {blockHash blockHeight info}
    (haddress : B.peginAddresses = [F.taprootAddress])
    (hinfo : B.peginInfo P tx blockHash blockHeight = some info) :
    ∃ out others, depositOutputs P F tx = out :: others ∧ info.amount = out.value := by
  simp only [peginInfo, Option.bind_eq_bind, Option.bind_eq_some_iff] at hinfo
  obtain ⟨out, hout, _, _, hinfo⟩ := hinfo
  cases hinfo
  simp only [haddress, List.any_cons, List.any_nil, Bool.or_false] at hout
  rw [← List.head?_filter] at hout
  obtain ⟨others, e⟩ := List.head?_eq_some_iff.mp hout
  exact ⟨out, others, e, rfl⟩

end Deposit

/-- The balance grows by the reported amount exactly if the outputs to the federation after the
first have no value. -/
theorem registerPegin_mints_iff {P : Primitives} {F : Federation} {B : Bridge} {tx : Transaction}
    {blockHash : BlockHash} {blockHeight : Nat} {info : PegInInfo} {w : UtxoManager}
    {before after : Nat} (haddress : B.peginAddresses = [F.taprootAddress])
    (hinfo : B.peginInfo P tx blockHash blockHeight = some info)
    (fresh : ∀ vout, ⟨P.txid tx, vout⟩ ∉ w.utxos)
    (hbefore : w.getBalance = .ok before)
    (hafter : (w.registerPegin P F tx).getBalance = .ok after) :
    after = before + info.amount ↔ ∀ out ∈ (depositOutputs P F tx).tail, out.value = 0 := by
  obtain ⟨out, others, e, hamount⟩ := B.peginInfo_amount haddress hinfo
  have hsum : tally _ _ (w.registerPegin P F tx).utxos = tally _ _ w.utxos + _ :=
    tally_registerOutputsFrom fresh
  rw [← checkedU64_eq_ok hbefore, ← checkedU64_eq_ok hafter, e, List.map_cons, List.sum_cons,
    ← hamount] at hsum
  have hzero : (others.map (·.value)).sum = 0 ↔ ∀ out ∈ others, out.value = 0 := by
    rw [List.sum_eq_zero_iff_forall_eq_nat, List.forall_mem_map]
  rw [e, List.tail_cons, ← hzero]
  omega

/-- A federation for closed examples. -/
def Federation.toyAddress : Federation := ⟨[5], [], [], 1, []⟩

/-- A transaction that pays the given amounts to that federation and names an account. -/
def Transaction.toyDeposit (amounts : List Nat) : Transaction :=
  ⟨2, 0, [], amounts.map (⟨·, [5]⟩) ++ [⟨0, [0x6a]⟩]⟩

/-- One output to the federation. -/
theorem registerPegin_mints_single :
    ∃ info, Bridge.peginInfo .toy ⟨[[5]], 6⟩ (.toyDeposit [1000]) [] 1 = some info ∧
      1000 = 0 + info.amount := by
  have hinfo : ∃ info, Bridge.peginInfo .toy ⟨[[5]], 6⟩ (.toyDeposit [1000]) [] 1 = some info :=
    ⟨_, rfl⟩
  have hafter : (UtxoManager.registerPegin .toy .toyAddress (.toyDeposit [1000])
      .empty).getBalance = .ok 1000 := rfl
  obtain ⟨info, hinfo⟩ := hinfo
  exact ⟨info, hinfo, (registerPegin_mints_iff rfl hinfo (fun _ => Finmap.notMem_empty) rfl
    hafter).mpr (by decide)⟩

/-- Two outputs to the federation: the bridge reports the first, and the balance grows by both. -/
theorem registerPegin_mints_fails :
    ¬ ∀ (P : Primitives) (F : Federation) (B : Bridge) (tx : Transaction) (blockHash : BlockHash)
      (blockHeight : Nat) (info : PegInInfo) (w : UtxoManager) (before after : Nat),
      B.peginAddresses = [F.taprootAddress] →
      B.peginInfo P tx blockHash blockHeight = some info →
      (∀ vout, ⟨P.txid tx, vout⟩ ∉ w.utxos) →
      w.getBalance = .ok before → (w.registerPegin P F tx).getBalance = .ok after →
      after = before + info.amount := by
  intro all
  have mints := all .toy .toyAddress ⟨[[5]], 6⟩ (.toyDeposit [1000, 500]) [] 1 _ .empty 0 1500 rfl
    rfl (fun _ => Finmap.notMem_empty) rfl rfl
  exact absurd mints (by decide)

end Alys
