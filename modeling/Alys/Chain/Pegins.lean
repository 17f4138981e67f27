import Alys.Chain.Produce

/-!
# Deposits in a produced block

What `fill_pegins` makes of the queue of peg-ins, and how many balances `produce_block` passes to
the execution layer.

One pass over the queue drops what the wallet knows, merges the deposits of an account and stops
taking new accounts at the sixteenth (`fillPegins_fills`). The cap is on the pass alone: the shares
of the fees stand in the list before it, so that the list can have more than sixteen entries
(`passedBalances_capped_iff`).
-/

namespace Alys
open Lib

/-! ## The queue -/

/-- The number of satoshi that can exist. -/
def bitcoinSupply : Nat := 21000000 * 10 ^ 8

/-- The account and the amount, in satoshi, of returned peg-ins, as the queue has them. -/
def returnedCredits (queue : Map Txid PegInInfo) (pegins : List (Txid × BlockHash)) :
    List (Address × Nat) :=
  pegins.filterMap fun x => (queue.lookup x.1).map (·.credit)

/-- What `fill_pegins` makes of a queue: the node after it, the peg-ins that it returns and the
payments that it adds to the balances. -/
structure Fills (c c' : Chain) (pegins : List (Txid × BlockHash))
    (payments : List (Address × Nat)) : Prop where
  frame : c' = { c with queuedPegins := c'.queuedPegins }
  purged : ∀ txid, c'.queuedPegins.lookup txid =
    if (c.bitcoinWallet.getTx txid).isSome then none else c.queuedPegins.lookup txid
  distinct : (pegins.map (·.1)).Nodup
  queued : ∀ x ∈ pegins, c.bitcoinWallet.getTx x.1 = none ∧
    ∃ pegin, c.queuedPegins.lookup x.1 = some pegin ∧ pegin.blockHash = x.2
  capped : payments.length ≤ mainnetMaxWithdrawals
  merged : (payments.map (·.1)).Nodup
  conserved : ∀ {a n}, (a, n) ∈ payments →
    n = 10 * total (returnedCredits c.queuedPegins pegins) a
  credited : ∀ credit ∈ returnedCredits c.queuedPegins pegins, credit.1 ∈ payments.map (·.1)
  full : ∀ {txid pegin}, c'.queuedPegins.lookup txid = some pegin → txid ∉ pegins.map (·.1) →
    payments.length = mainnetMaxWithdrawals ∧ pegin.evmAccount ∉ payments.map (·.1)

/-- The payments go to the accounts that are paid, in order. -/
lemma fillPegins_accounts {balances payments pegins} {c c' : Chain}
    (e : fillPegins balances c = (.ok (balances ++ payments, pegins), c')) :
    payments.map (·.1) = ordered (payees c.pendingPegins) := by
  obtain ⟨filled, payments', hfilled, hpayments, hbalances, _, _⟩ := fillPegins_ok_iff.mp e
  cases List.append_cancel_left hbalances
  have h : FilledBy c.pendingPegins filled :=
    foldlM_invariant hfilled ⟨rfl, nofun, rfl⟩ fun _ _ _ _ h e => h.step e
  rw [← h.keys, ← map_fst_entries]
  refine map_of_mapM_ok hpayments fun x y e => ?_
  rw [(peginBalance_ok_iff.mp e).2]

variable {pegins : List PegInInfo}

lemma card_payees :
    (payees pegins).card =
      min mainnetMaxWithdrawals (pegins.map (·.evmAccount)).toFinset.card :=
  card_capped

/-- A deposit is left out only when the cap is reached. -/
lemma card_payees_of_not_mem {pegin : PegInInfo} (mem : pegin ∈ pegins)
    (nmem : pegin.evmAccount ∉ payees pegins) : (payees pegins).card = mainnetMaxWithdrawals := by
  refine (card_payees.trans_le (min_le_left _ _)).antisymm (Nat.not_lt.mp fun room => nmem ?_)
  rw [payees, capped_of_room room]
  exact List.mem_toFinset.mpr (List.mem_map_of_mem mem)

/-! ## Amounts -/

/-- The amounts that are pending are among those that are queued. -/
lemma Chain.sum_pendingPegins_le (c : Chain) :
    (c.pendingPegins.map (·.amount)).sum ≤ ((queueValues c.queuedPegins).map (·.amount)).sum := by
  have nodup : (entries c.removeProcessed.queuedPegins).Nodup :=
    .of_map (·.1) (by rw [map_fst_entries]; exact nodup_ordered)
  have sub : entries c.removeProcessed.queuedPegins ⊆ entries c.queuedPegins := by
    rintro ⟨txid, pegin⟩ mem
    rw [mem_entries, Chain.lookup_removeProcessed] at mem
    split at mem
    case isTrue => cases mem
    case isFalse => exact mem_entries.mpr mem
  obtain ⟨l, perm, sublist⟩ := nodup.subperm sub
  have hle := (sublist.map (·.2.amount)).sum_le_sum fun _ _ => Nat.zero_le _
  rw [(perm.map (·.2.amount)).sum_nat] at hle
  simp only [Chain.pendingPegins, queueValues, List.map_map]
  exact hle

lemma total_credits_le {a : Address} :
    total (pegins.map (·.credit)) a ≤ (pegins.map (·.amount)).sum := by
  have hle := total_le_sum (k := a) (l := pegins.map (·.credit))
  rwa [List.map_map] at hle

/-- The loop does not overflow: every sum that it computes is one of amounts in the queue. -/
lemma foldlM_fillPegin_ok (supply : (pegins.map (·.amount)).sum ≤ bitcoinSupply) :
    ∃ filled, pegins.foldlM fillPegin ⟨∅, [], 0⟩ = .ok filled ∧ FilledBy pegins filled := by
  have step : ∀ before pegin after filled, pegins = before ++ pegin :: after →
      FilledBy before filled ∧ filled.totalPeginAmount ≤ (before.map (·.amount)).sum →
      ∃ filled', fillPegin filled pegin = .ok filled' ∧ FilledBy (before ++ [pegin]) filled' ∧
        filled'.totalPeginAmount ≤ ((before ++ [pegin]).map (·.amount)).sum := by
    rintro before pegin after filled rfl ⟨h, hsum⟩
    simp only [List.map_append, List.map_cons, List.sum_append, List.sum_cons, bitcoinSupply]
      at supply
    by_cases room : filled.withdrawals.keys.card < mainnetMaxWithdrawals ∨
        pegin.evmAccount ∈ filled.withdrawals
    · have hcredits := @total_credits_le before pegin.evmAccount
      have e : fillPegin filled pegin = .ok
          ⟨filled.withdrawals.insert pegin.evmAccount
            ((filled.withdrawals.lookup pegin.evmAccount).getD 0 + pegin.amount),
            filled.processedPegins ++ [(pegin.txid, pegin.blockHash)],
            filled.totalPeginAmount + pegin.amount⟩ := by
        simp only [fillPegin, if_pos room, bind_eq_ok_iff]
        refine ⟨_, checkedU64_of_lt ?_, _, checkedU64_of_lt ?_, rfl⟩
        · rw [h.amount_eq room]
          omega
        · omega
      refine ⟨_, e, h.step e, ?_⟩
      simpa using hsum
    · have e : fillPegin filled pegin = .ok filled := if_neg room
      refine ⟨_, e, h.step e, ?_⟩
      rw [List.map_append, List.sum_append]
      exact hsum.trans (Nat.le_add_right _ _)
  obtain ⟨filled, e, h, _⟩ := exists_foldlM_ok (f := fillPegin)
    (I := fun before filled =>
      FilledBy before filled ∧ filled.totalPeginAmount ≤ (before.map (·.amount)).sum)
    (b := ⟨∅, [], 0⟩) ⟨⟨rfl, nofun, rfl⟩, Nat.zero_le _⟩ step
  exact ⟨filled, e, h⟩

/-- A queue whose amounts can exist is handled without overflow. -/
lemma fillPegins_returns {c : Chain} (balances : List (Address × Nat))
    (supply : ((queueValues c.queuedPegins).map (·.amount)).sum ≤ bitcoinSupply) :
    ∃ payments pegins,
      fillPegins balances c = (.ok (balances ++ payments, pegins), c.removeProcessed) := by
  have hpending := c.sum_pendingPegins_le.trans supply
  obtain ⟨filled, hfilled, h⟩ := foldlM_fillPegin_ok hpending
  obtain ⟨payments, hpayments⟩ : ∃ payments,
      (entries filled.withdrawals).mapM peginBalance = .ok payments := by
    rw [exists_mapM_ok_iff]
    rintro ⟨a, n⟩ mem
    rw [mem_entries] at mem
    have hpaid : a ∈ payees c.pendingPegins := by
      rw [← h.keys]
      exact Finmap.mem_keys.mpr (Finmap.mem_of_lookup_eq_some mem)
    rw [h.amounts a hpaid, Option.some.injEq] at mem
    have hcredits := @total_credits_le c.pendingPegins a
    refine ⟨_, peginBalance_ok_iff.mpr ⟨?_, rfl⟩⟩
    simp only [bitcoinSupply] at hpending
    omega
  exact ⟨payments, filled.processedPegins,
    fillPegins_ok_iff.mpr ⟨filled, payments, hfilled, hpayments, rfl, rfl, rfl⟩⟩

/-! ## What is returned -/

namespace Chain

variable {c : Chain}

/-- A pending peg-in is found in the queue under its own transaction. -/
lemma QueueKeyed.lookup_pending (hqueue : c.QueueKeyed) {pegin : PegInInfo}
    (mem : pegin ∈ c.pendingPegins) :
    c.queuedPegins.lookup pegin.txid = some pegin ∧ c.bitcoinWallet.getTx pegin.txid = none := by
  obtain ⟨txid, hlookup, hnew⟩ := mem_pendingPegins.mp mem
  cases hqueue txid pegin hlookup
  exact ⟨hlookup, hnew⟩

/-- What is left in the queue is pending, under its own transaction. -/
lemma QueueKeyed.of_lookup (hqueue : c.QueueKeyed) {txid : Txid} {pegin : PegInInfo}
    (h : c.removeProcessed.queuedPegins.lookup txid = some pegin) :
    pegin.txid = txid ∧ pegin ∈ c.pendingPegins := by
  refine ⟨?_, mem_queueValues.mpr ⟨txid, h⟩⟩
  rw [lookup_removeProcessed] at h
  split at h
  case isTrue => cases h
  case isFalse => exact hqueue txid pegin h

lemma QueueKeyed.nodup_pending (hqueue : c.QueueKeyed) : (c.pendingPegins.map (·.txid)).Nodup := by
  have hkeys : c.pendingPegins.map (·.txid) =
      (entries c.removeProcessed.queuedPegins).map (·.1) := by
    rw [pendingPegins, queueValues, List.map_map]
    refine List.map_congr_left ?_
    rintro ⟨txid, pegin⟩ mem
    exact (hqueue.of_lookup (mem_entries.mp mem)).1
  rw [hkeys, map_fst_entries]
  exact nodup_ordered

lemma QueueKeyed.returnedCredits_listed (hqueue : c.QueueKeyed) :
    returnedCredits c.queuedPegins
        ((listed c.pendingPegins).map fun pegin => (pegin.txid, pegin.blockHash)) =
      (listed c.pendingPegins).map (·.credit) := by
  rw [returnedCredits, List.filterMap_map]
  refine List.filterMap_eq_map_iff_forall_eq_some.mpr fun pegin mem => ?_
  have hlookup := (hqueue.lookup_pending (List.mem_filter.mp mem).1).1
  simp only [Function.comp_apply, hlookup, Option.map_some]

end Chain

/-- For every queue whose amounts can exist, `fill_pegins` returns, drops exactly what the wallet
knows, pays each account once and what its returned deposits sum up to, and leaves out a deposit
only if sixteen other accounts are paid. -/
theorem fillPegins_fills {c : Chain} (balances : List (Address × Nat)) (hqueue : c.QueueKeyed)
    (supply : ((queueValues c.queuedPegins).map (·.amount)).sum ≤ bitcoinSupply) :
    ∃ payments pegins c', fillPegins balances c = (.ok (balances ++ payments, pegins), c') ∧
      Fills c c' pegins payments := by
  obtain ⟨payments, pegins, e⟩ := fillPegins_returns balances supply
  refine ⟨payments, pegins, _, e, ?_⟩
  obtain ⟨_, rfl, payments', hbalances, hpays⟩ := fillPegins_ok e
  cases List.append_cancel_left hbalances
  have haccounts := fillPegins_accounts e
  have hlength : payments.length = (payees c.pendingPegins).card := by
    rw [← length_ordered, ← haccounts, List.length_map]
  constructor
  case frame => rfl
  case purged => exact fun txid => Chain.lookup_removeProcessed
  case distinct =>
    rw [List.map_map]
    exact (List.filter_sublist.map _).nodup hqueue.nodup_pending
  case queued =>
    intro x mem
    obtain ⟨pegin, hlisted, rfl⟩ := List.mem_map.mp mem
    obtain ⟨hlookup, hnew⟩ := hqueue.lookup_pending (List.mem_filter.mp hlisted).1
    exact ⟨hnew, pegin, hlookup, rfl⟩
  case capped =>
    rw [hlength, card_payees]
    exact min_le_left _ _
  case merged =>
    rw [haccounts]
    exact nodup_ordered
  case conserved =>
    intro a n mem
    obtain ⟨hpaid, rfl⟩ := hpays.mem_iff.mp mem
    rw [hqueue.returnedCredits_listed, total_listed hpaid, Nat.mul_comm]
  case credited =>
    intro credit mem
    rw [hqueue.returnedCredits_listed] at mem
    rw [haccounts, mem_ordered]
    exact mem_credits_listed.mp (List.mem_map_of_mem mem)
  case full =>
    intro txid pegin hlookup hout
    obtain ⟨rfl, hpending⟩ := hqueue.of_lookup hlookup
    -- a pending deposit of an account that is paid is listed
    have hnot : pegin.evmAccount ∉ payees c.pendingPegins := fun hpaid => by
      refine hout ?_
      rw [List.map_map]
      exact List.mem_map_of_mem (f := fun pegin : PegInInfo => pegin.txid)
        (List.mem_filter.mpr ⟨hpending, decide_eq_true hpaid⟩)
    rw [hlength, haccounts, mem_ordered]
    exact ⟨card_payees_of_not_mem hpending hnot, hnot⟩

/-- A node whose queue holds deposits of 1000 satoshi for different accounts. -/
def Chain.toyDeposits (n : Nat) : Chain :=
  { Chain.new .toy .empty with
    queuedPegins := (List.range n).foldl
      (fun queue i => queue.insert [.ofNat i] ⟨[.ofNat i], [], 1000, [.ofNat i], 1⟩) ∅ }

lemma Chain.toyDeposits_queueKeyed (n : Nat) : (Chain.toyDeposits n).QueueKeyed := by
  intro txid pegin
  simp only [toyDeposits]
  induction n with
  | zero => nofun
  | succ n ih =>
    rw [List.range_succ, List.foldl_append, List.foldl_cons, List.foldl_nil]
    intro e
    by_cases eq : txid = [.ofNat n]
    · subst eq
      rw [Finmap.lookup_insert] at e
      cases e
      rfl
    · rw [Finmap.lookup_insert_of_ne _ eq] at e
      exact ih e

/-- Of seventeen deposits one is left out. -/
theorem fillPegins_fills_seventeen :
    ((queueValues (Chain.toyDeposits 17).queuedPegins).map (·.amount)).sum = 17000 ∧
    ∃ payments pegins c',
      fillPegins [] (Chain.toyDeposits 17) = (.ok ([] ++ payments, pegins), c') ∧
      Fills (Chain.toyDeposits 17) c' pegins payments :=
  ⟨by decide, fillPegins_fills [] (Chain.toyDeposits_queueKeyed 17) (by decide)⟩

/-! ## The cap -/

/-- The balances that `produce_block` passes to the execution layer: the shares of the fees, if an
AuxPow is queued, followed by the deposits. -/
def passedBalances (federation : List Address) (fees : Nat) (queuedPow : Option AuxPowHeader) :
    ChainM (List (Address × Nat)) := do
  let addBalances ← Action.lift (match queuedPow with
    | some header => splitFees federation fees header.feeRecipient
    | none => .ok [])
  let (addBalances, _) ← fillPegins addBalances
  return addBalances

/-- The payload of a proposed block is built with these balances. -/
lemma Proposed.passes {P cfg env} {c : Chain} {b : SignedConsensusBlock}
    (h : Proposed P cfg env c b) :
    ∃ fees balances prevPayloadHead c',
      passedBalances cfg.federation fees b.message.auxpowHeader c = (.ok balances, c') ∧
      env.buildBlock prevPayloadHead (balances.map toWithdrawal) =
        .ok b.message.executionPayload := by
  obtain ⟨shares, balances, head, c', hshares, hfill, hbuild⟩ := h.payload
  simp only [passedBalances, Action.bind_ok_iff, Action.lift_ok_iff]
  cases hpow : b.message.auxpowHeader with
  | none =>
    rw [feeShares, hpow] at hshares
    exact ⟨0, balances, head, c', ⟨shares, c, ⟨hshares, rfl⟩, _, _, hfill, rfl⟩, hbuild⟩
  | some pow =>
    rw [feeShares, hpow] at hshares
    obtain ⟨fees, _, hsplit⟩ := bind_eq_ok_iff.mp hshares
    exact ⟨fees, balances, head, c', ⟨shares, c, ⟨hsplit, rfl⟩, _, _, hfill, rfl⟩, hbuild⟩

/-- The shares of the fees and the deposits, one after the other. -/
lemma passedBalances_ok {federation : List Address} {fees : Nat} {queuedPow : Option AuxPowHeader}
    {balances : List (Address × Nat)} {c c' : Chain}
    (e : passedBalances federation fees queuedPow c = (.ok balances, c')) :
    balances.length =
      (if queuedPow.isSome ∧ fees ≠ 0 then federation.length + 1 else 0) +
        min mainnetMaxWithdrawals (c.pendingPegins.map (·.evmAccount)).toFinset.card := by
  simp only [passedBalances, Action.bind_ok_iff, Action.lift_ok_iff] at e
  obtain ⟨shares, _, ⟨hshares, rfl⟩, ⟨_, pegins⟩, _, hfill, e⟩ := e
  cases e
  have hlength : shares.length =
      if queuedPow.isSome ∧ fees ≠ 0 then federation.length + 1 else 0 := by
    cases queuedPow with
    | none =>
      cases hshares
      rfl
    | some pow =>
      obtain ⟨⟨rfl, rfl⟩ | ⟨hfees, _, rfl⟩, _⟩ := splitFees_ok hshares
      · rfl
      · rw [if_pos ⟨rfl, hfees⟩, List.length_cons, List.length_map]
  obtain ⟨_, _, payments, rfl, _⟩ := fillPegins_ok hfill
  rw [List.length_append, hlength, ← card_payees, ← length_ordered, ← fillPegins_accounts hfill,
    List.length_map]

/-- The list has at most sixteen entries exactly if no fees are paid or the miner, the federation
and the accounts with deposits are at most sixteen. -/
theorem passedBalances_capped_iff {federation : List Address} {fees : Nat}
    {queuedPow : Option AuxPowHeader} {balances : List (Address × Nat)} {c c' : Chain}
    (e : passedBalances federation fees queuedPow c = (.ok balances, c')) :
    balances.length ≤ mainnetMaxWithdrawals ↔
      queuedPow = none ∨ fees = 0 ∨
        1 + federation.length + (c.pendingPegins.map (·.evmAccount)).toFinset.card ≤
          mainnetMaxWithdrawals := by
  rw [passedBalances_ok e]
  by_cases hpow : queuedPow = none
  · simp [hpow]
  by_cases hfees : fees = 0
  · simp [hfees]
  rw [if_pos ⟨Option.isSome_iff_ne_none.mpr hpow, hfees⟩, or_iff_right hpow, or_iff_right hfees]
  omega

/-- One deposit and a federation of fourteen. -/
theorem passedBalances_capped_fourteen :
    ∃ balances c', passedBalances (List.replicate 14 [100]) (10 ^ 12) (some (.toy []))
        (Chain.toyDeposits 1) = (.ok balances, c') ∧
      balances.length ≤ mainnetMaxWithdrawals := by
  have returns : ∃ balances c', passedBalances (List.replicate 14 [100]) (10 ^ 12)
      (some (.toy [])) (Chain.toyDeposits 1) = (.ok balances, c') := ⟨_, _, rfl⟩
  obtain ⟨balances, c', e⟩ := returns
  exact ⟨balances, c', e, (passedBalances_capped_iff e).mpr (by decide)⟩

/-- One deposit and a federation of fifteen. -/
theorem passedBalances_capped_fails :
    ¬ ∀ (federation : List Address) (fees : Nat) (queuedPow : Option AuxPowHeader) (c : Chain)
      (balances : List (Address × Nat)) (c' : Chain), federation.length ≤ 15 →
      passedBalances federation fees queuedPow c = (.ok balances, c') →
      balances.length ≤ mainnetMaxWithdrawals := by
  intro all
  have capped := all ((List.range 15).map fun k => [UInt8.ofNat (100 + k)]) (10 ^ 12)
    (some (.toy [])) (Chain.toyDeposits 1) _ _ (by decide) rfl
  exact absurd capped (by decide)

end Alys
