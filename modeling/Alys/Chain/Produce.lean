import Alys.Chain.Fees
import Alys.Chain.Rollback
import Alys.Chain.Spending
import Alys.Lib.Capped
import Alys.Lib.Ordered

/-!
# Producing a block

Model of `produce_block`, `fill_pegins` and `create_pegout_payments` in `app/src/chain.rs`. What the
execution layer builds and the payment that the wallet creates for peg-outs are answers of the
environment. The synchronisation that starts when the execution layer has no payload to build on is
left out, as is the publication of the block.

The producer writes the shares of the fees and the merged peg-ins one after the other into the list
of withdrawals; `check_withdrawals` merges both in one map. The two agree unless an account receives
a share and a peg-in (`carried_accepted_iff`). The producer includes the queued AuxPow also when it
leaves out a peg-out of its range, which lacks signatures; `process_block` requires all of them
(`proposed_finalizes_iff`).
-/

namespace Alys
open Lib

/-! ## Peg-ins -/

/-- `MAINNET_MAX_WITHDRAWALS`. -/
def mainnetMaxWithdrawals : Nat := 16

/-- The variables of the loop of `fill_pegins`. -/
structure Filled where
  withdrawals : Map Address Nat
  processedPegins : List (Txid × BlockHash)
  totalPeginAmount : Nat

/-- The body of the loop of `fill_pegins`. -/
def fillPegin (filled : Filled) (pegin : PegInInfo) : Except Failure Filled :=
  if filled.withdrawals.keys.card < mainnetMaxWithdrawals ∨
      pegin.evmAccount ∈ filled.withdrawals then do
    let amount ←
      checkedU64 ((filled.withdrawals.lookup pegin.evmAccount).getD 0 + pegin.amount)
    let total ← checkedU64 (filled.totalPeginAmount + pegin.amount)
    return ⟨filled.withdrawals.insert pegin.evmAccount amount,
      filled.processedPegins ++ [(pegin.txid, pegin.blockHash)], total⟩
  else
    return filled

/-- Removes the peg-ins that were already processed from the queue. -/
def Chain.removeProcessed (c : Chain) : Chain :=
  let txids := (ordered c.queuedPegins.keys).filter fun txid => (c.bitcoinWallet.getTx txid).isSome
  { c with queuedPegins := txids.foldl (fun queue txid => queue.erase txid) c.queuedPegins }

/-- The values of a peg-in queue in the order of their transactions. -/
def queueValues (queue : Map Txid PegInInfo) : List PegInInfo := (entries queue).map (·.2)

lemma mem_queueValues {queue : Map Txid PegInInfo} {pegin : PegInInfo} :
    pegin ∈ queueValues queue ↔ ∃ txid, queue.lookup txid = some pegin := by
  simp only [queueValues, List.mem_map, Prod.exists, exists_eq_right, mem_entries]

/-- The queued peg-ins that were not processed. -/
def Chain.pendingPegins (c : Chain) : List PegInInfo := queueValues c.removeProcessed.queuedPegins

/-- A merged peg-in as a balance. -/
def peginBalance (withdrawal : Address × Nat) : Except Failure (Address × Nat) := do
  return (withdrawal.1, ← fromSatoshi withdrawal.2)

/-- `Chain::fill_pegins`. It returns the balances, to which it adds the merged peg-ins, and the
peg-ins. -/
def fillPegins (addBalances : List (Address × Nat)) :
    ChainM (List (Address × Nat) × List (Txid × BlockHash)) := do
  let c ← Action.get
  Action.modify Chain.removeProcessed
  let filled ← Action.lift (c.pendingPegins.foldlM fillPegin ⟨∅, [], 0⟩)
  let payments ← Action.lift ((entries filled.withdrawals).mapM peginBalance)
  return (addBalances ++ payments, filled.processedPegins)

/-! ## The block -/

/-- What the environment answers to a producer. -/
structure ProducerEnv extends Env where
  /-- whether `engine.get_payload_bodies_by_hash_v1` finds the payload; `none` for an error -/
  payloadAvailable : ExecutionBlockHash → Option Bool
  /-- `engine.build_block`, at the time of the step -/
  buildBlock : Option ExecutionBlockHash → List Withdrawal → Except Failure ExecutionPayload
  /-- `UtxoManager::create_payment`, at the current fee rate -/
  createPayment : UtxoManager → List TxOut → Except Failure Transaction

/-- A call whose `Err` is only logged. -/
def ChainM.logErr {α : Type} (x : ChainM α) : ChainM (Option α) := fun c =>
  match x c with
  | (.ok a, c') => (.ok (some a), c')
  | (.error (.error _), c') => (.ok none, c')
  | (.error f, c') => (.error f, c')

/-- The queued AuxPow and the finalized peg-outs of its range that a block includes. -/
def Chain.queuedFinalization (P : Primitives) (cfg : ChainConfig) (c : Chain) :
    Except Failure (Option AuxPowHeader × List Transaction) :=
  match c.queuedPow with
  | none => .ok (none, [])
  | some pow => do
    let proposals ← c.storage.getBitcoinPaymentProposalsInRange pow.rangeStart pow.rangeEnd
    -- a transaction without enough signatures is skipped
    let finalizedTxs := proposals.filterMap fun tx =>
      (c.bitcoinSignatureCollector.getFinalized cfg.bitcoinFederation (P.txid tx)).toOption
    return (some pow, finalizedTxs)

/-- `Chain::create_pegout_payments`. -/
def createPegoutPayments (P : Primitives) (env : ProducerEnv) (w : UtxoManager) :
    Option ExecutionBlockHash → Except Failure (Option Transaction)
  | none => .ok none
  | some payloadHash => do
    let (_, executionReceipts) ← unwrap (env.getBlockAndReceipts payloadHash)
    let payments ← filterPegouts P executionReceipts
    if payments.isEmpty then
      return none
    else
      match env.createPayment w payments with
      | .ok unsignedTxn => return some unsignedTxn
      | .error (.error _) => return none
      | .error f => throw f

/-- A balance as a withdrawal (Rust `AddBalance` and its conversion). -/
def toWithdrawal (balance : Address × Nat) : Withdrawal := ⟨balance.1, balance.2⟩

/-- The part of `produce_block` that builds a block on a parent. -/
def proposeOn (P : Primitives) (cfg : ChainConfig) (env : ProducerEnv) (slot : Nat)
    (prev : Hash256) (prevPayloadHead : Option ExecutionBlockHash) :
    ChainM (Option SignedConsensusBlock) := do
  let c ← Action.get
  let (queuedPow, finalizedPegouts) ← Action.lift (c.queuedFinalization P cfg)
  let addBalances ← Action.lift (match queuedPow with
    | some header => do
      splitFees cfg.federation (← c.storage.queuedFees prev) header.feeRecipient
    | none => .ok [])
  let (addBalances, pegins) ← fillPegins addBalances
  match env.buildBlock prevPayloadHead (addBalances.map toWithdrawal) with
  | .error (.error _) => return none
  | .error f => Action.fail f
  | .ok payload =>
    let pegouts ← Action.lift (createPegoutPayments P env c.bitcoinWallet prevPayloadHead)
    let block : ConsensusBlock :=
      { parentHash := prev
        slot
        auxpowHeader := queuedPow
        executionPayload := payload
        pegins
        pegoutPaymentProposal := pegouts
        finalizedPegouts }
    let authority ← Action.lift (okOr cfg.aura.authority .panic)
    let signedBlock ← Action.lift (block.signBlock P authority)
    return some signedBlock

/-- `Chain::produce_block` up to the signed block; there is none on a node that is not synced, when
the execution layer lost the payload of the head, or when it builds none. -/
def proposeBlock (P : Primitives) (cfg : ChainConfig) (env : ProducerEnv) (slot : Nat) :
    ChainM (Option SignedConsensusBlock) := do
  let c ← Action.get
  if !c.syncStatus.isSynced then
    return none
  else
    match c.head with
    | none => proposeOn P cfg env slot Hash256.zero none
    | some head =>
      let prev ← Action.lift (okOr (c.storage.getBlock head.hash) (.error .missingParent))
      let prevPayloadHash := prev.message.executionPayload.blockHash
      let available ← Action.lift
        (okOr (env.payloadAvailable prevPayloadHash) (.error .executionLayerError))
      if available then
        proposeOn P cfg env slot head.hash (some prevPayloadHash)
      else
        let _ ← (rollbackHead P env.toEnv (prev.number - 1)).logErr
        return none

/-- `Chain::produce_block`. It returns the block that is published. -/
def produceBlock (P : Primitives) (cfg : ChainConfig) (env : ProducerEnv) (slot : Nat) :
    ChainM (Option SignedConsensusBlock) := do
  match ← proposeBlock P cfg env slot with
  | none => return none
  | some signedBlock =>
    match ← (processBlock P cfg env.toEnv signedBlock).logErr with
    | none => return none
    | some _ => return some signedBlock

/-! ## What a call does to the core -/

/-- The block of the head, if the execution layer lost its payload. -/
def Chain.lostHead (env : ProducerEnv) (c : Chain) : Option SignedConsensusBlock :=
  if !c.syncStatus.isSynced then none
  else do
    let head ← c.head
    let prev ← c.storage.getBlock head.hash
    if env.payloadAvailable prev.message.executionPayload.blockHash = some false then some prev
    else none

lemma ChainM.logErr_snd {α : Type} (x : ChainM α) (c : Chain) : (x.logErr c).2 = (x c).2 := by
  unfold logErr
  split
  case h_1 e => rw [e]
  case h_2 e => rw [e]
  case h_3 e => rw [e]

section Core

variable {P : Primitives} {cfg : ChainConfig} {env : ProducerEnv} {slot : Nat} {c : Chain}
  {prev : SignedConsensusBlock}

lemma Chain.lostHead_eq_some :
    c.lostHead env = some prev ↔ c.syncStatus.isSynced = true ∧
      ∃ head, c.head = some head ∧ c.storage.getBlock head.hash = some prev ∧
        env.payloadAvailable prev.message.executionPayload.blockHash = some false := by
  unfold lostHead
  cases c.syncStatus.isSynced with
  | false => simp
  | true =>
    simp only [Bool.not_true, Bool.false_eq_true, if_false, bind, Option.bind_eq_some_iff,
      true_and]
    refine exists_congr fun head => and_congr_right fun _ => ?_
    constructor
    · rintro ⟨b, hb, e⟩
      split at e
      case isTrue h =>
        cases e
        exact ⟨hb, h⟩
      case isFalse => cases e
    · rintro ⟨hb, h⟩
      exact ⟨prev, hb, if_pos h⟩

/-- A producer whose execution layer lost the payload of the head rolls back to the block before. -/
lemma produceBlock_of_lostHead (h : c.lostHead env = some prev) :
    (produceBlock P cfg env slot c).2 = (rollbackHead P env.toEnv (prev.number - 1) c).2 := by
  obtain ⟨hsynced, head, hhead, hprev, hlost⟩ := Chain.lostHead_eq_some.mp h
  rw [← ChainM.logErr_snd (rollbackHead P env.toEnv (prev.number - 1))]
  simp only [produceBlock, proposeBlock, Action.bind_apply, Action.get_apply, Action.lift_apply,
    hsynced, hhead, hprev, hlost, okOr, Bool.not_true, Bool.false_eq_true, if_false]
  generalize ((rollbackHead P env.toEnv (prev.number - 1)).logErr c) = r
  obtain ⟨_ | _, _⟩ := r <;> rfl

/-- Building a block on a parent leaves the core. -/
lemma proposeOn_keeps {k : Core} {prev : Hash256} {prevPayloadHead : Option ExecutionBlockHash} :
    Action.Keeps (fun c : Chain => c.core = k) (proposeOn P cfg env slot prev prevPayloadHead) := by
  refine .bind .get fun _ => .bind .lift fun _ => .bind .lift fun _ => .bind ?_ fun filled => ?_
  · exact .bind .get fun _ => .bind (.modify fun _ h => h) fun _ => .bind .lift fun _ =>
      .bind .lift fun _ => .pure
  · obtain ⟨balances, pegins⟩ := filled
    simp only
    split
    · exact .pure
    · exact .fail
    · exact .bind .lift fun _ => .bind .lift fun _ => .bind .lift fun _ => .pure

/-- Otherwise it does to the core what processing a block does. -/
lemma produceBlock_keeps {I : Core → Prop} (hnone : c.lostHead env = none) (h : I c.core)
    (hblock : ∀ b (c' : Chain), I c'.core → I (processBlock P cfg env.toEnv b c').2.core) :
    I (produceBlock P cfg env slot c).2.core := by
  have hpropose : (proposeBlock P cfg env slot c).2.core = c.core := by
    suffices hkeeps : Action.Keeps (fun c' : Chain => c'.core = c.core)
        (if !c.syncStatus.isSynced then pure none
        else
          match c.head with
          | none => proposeOn P cfg env slot Hash256.zero none
          | some head => do
            let prev ← Action.lift (okOr (c.storage.getBlock head.hash) (.error .missingParent))
            let available ← Action.lift (okOr (env.payloadAvailable
              prev.message.executionPayload.blockHash) (.error .executionLayerError))
            if available then
              proposeOn P cfg env slot head.hash (some prev.message.executionPayload.blockHash)
            else
              let _ ← (rollbackHead P env.toEnv (prev.number - 1)).logErr
              return none) from hkeeps c rfl
    split_ifs with hsynced
    · exact .pure
    split
    case h_1 => exact proposeOn_keeps
    case h_2 head hhead =>
      refine .lift_bind fun prev hprev => .lift_bind fun available havailable => ?_
      cases available with
      | true => exact proposeOn_keeps
      | false =>
        have := Chain.lostHead_eq_some.mpr ⟨by simpa using hsynced, head, hhead,
          okOr_eq_ok_iff.mp hprev, okOr_eq_ok_iff.mp havailable⟩
        rw [hnone] at this
        cases this
  rw [produceBlock, Action.bind_apply]
  generalize proposeBlock P cfg env slot c = r at hpropose
  obtain ⟨_ | _ | b, c'⟩ := r
  · exact hpropose ▸ h
  · exact hpropose ▸ h
  · have hprocess := hblock b c' (hpropose ▸ h)
    rw [← ChainM.logErr_snd] at hprocess
    simp only [Action.bind_apply]
    generalize (processBlock P cfg env.toEnv b).logErr c' = r at hprocess
    obtain ⟨_ | _ | _, _⟩ := r <;> exact hprocess

end Core

/-! ## What the producer lists -/

/-- The account and the amount, in satoshi, of a peg-in. -/
def PegInInfo.credit (pegin : PegInInfo) : Address × Nat := (pegin.evmAccount, pegin.amount)

/-- The accounts that a block pays: the first sixteen. -/
def payees (pegins : List PegInInfo) : Finset Address :=
  capped mainnetMaxWithdrawals (pegins.map (·.evmAccount))

/-- The peg-ins that a block lists: all those of the accounts that it pays. -/
def listed (pegins : List PegInInfo) : List PegInInfo :=
  pegins.filter (·.evmAccount ∈ payees pegins)

variable {pegins : List PegInInfo}

lemma payees_concat {pegin} :
    payees (pegins ++ [pegin]) =
      capped.add mainnetMaxWithdrawals (payees pegins) pegin.evmAccount := by
  simp only [payees, List.map_append, List.map_cons, List.map_nil, capped_concat]

lemma total_credits_concat {pegin : PegInInfo} {a : Address} :
    total ((pegins ++ [pegin]).map (·.credit)) a =
      total (pegins.map (·.credit)) a + if pegin.evmAccount = a then pegin.amount else 0 := by
  rw [List.map_append, total_append, List.map_cons, List.map_nil, total_cons, total_nil,
    Nat.add_zero]
  rfl

/-- The state of the loop after some peg-ins. -/
structure FilledBy (pegins : List PegInInfo) (filled : Filled) : Prop where
  keys : filled.withdrawals.keys = payees pegins
  amounts : ∀ a ∈ payees pegins,
    filled.withdrawals.lookup a = some (total (pegins.map (·.credit)) a)
  processed : filled.processedPegins =
    (listed pegins).map fun pegin => (pegin.txid, pegin.blockHash)

namespace FilledBy

variable {pegins : List PegInInfo} {pegin : PegInInfo} {filled filled' : Filled}

section

variable (room : filled.withdrawals.keys.card < mainnetMaxWithdrawals ∨
  pegin.evmAccount ∈ filled.withdrawals)

include room

/-- An account that is paid from now on and was not before has no peg-in so far. -/
lemma account_new (h : FilledBy pegins filled) (new : pegin.evmAccount ∉ payees pegins) :
    pegin.evmAccount ∉ pegins.map (·.evmAccount) := by
  rw [← Finmap.mem_keys, h.keys] at room
  rw [payees, capped_of_room (room.resolve_right new)] at new
  simpa using new

/-- The amounts after one more peg-in of an account that is paid. -/
lemma amount_eq (h : FilledBy pegins filled) :
    (filled.withdrawals.lookup pegin.evmAccount).getD 0 =
      total (pegins.map (·.credit)) pegin.evmAccount := by
  by_cases mem : pegin.evmAccount ∈ payees pegins
  · rw [h.amounts _ mem, Option.getD_some]
  · have hnot : pegin.evmAccount ∉ filled.withdrawals := by
      rwa [← Finmap.mem_keys, h.keys]
    have hnew := h.account_new room mem
    rw [Finmap.lookup_eq_none.mpr hnot, Option.getD_none, total_eq_zero]
    simpa [PegInInfo.credit] using hnew

/-- With room for it, the account of the next peg-in is paid. -/
lemma payees_eq (h : FilledBy pegins filled) :
    payees (pegins ++ [pegin]) = insert pegin.evmAccount (payees pegins) := by
  rw [payees_concat, capped.add, ← h.keys]
  split
  case isFalse => rfl
  case isTrue full =>
    have hmem := room.resolve_left (Nat.not_lt.mpr full)
    exact (Finset.insert_eq_of_mem (Finmap.mem_keys.mpr hmem)).symm

/-- With room for it, the next peg-in is listed, and no earlier one becomes listed. -/
lemma listed_eq (h : FilledBy pegins filled) :
    listed (pegins ++ [pegin]) = listed pegins ++ [pegin] := by
  unfold listed
  rw [List.filter_append, h.payees_eq room]
  congr 1
  · refine List.filter_congr fun x hx => ?_
    rw [decide_eq_decide, Finset.mem_insert]
    refine or_iff_right_of_imp fun eq => ?_
    by_contra new
    rw [eq] at new
    refine h.account_new room new ?_
    rw [← eq]
    exact List.mem_map_of_mem hx
  · simp

end

/-- One more peg-in. -/
lemma step (h : FilledBy pegins filled) (e : fillPegin filled pegin = .ok filled') :
    FilledBy (pegins ++ [pegin]) filled' := by
  unfold fillPegin at e
  split at e
  case isTrue room =>
    simp only [bind_eq_ok_iff] at e
    obtain ⟨amount, hamount, _, _, e⟩ := e
    cases e
    cases checkedU64_eq_ok hamount
    rw [h.amount_eq room]
    constructor
    case keys =>
      ext a
      rw [Finmap.mem_keys, Finmap.mem_insert, ← Finmap.mem_keys, h.keys, h.payees_eq room,
        Finset.mem_insert]
    case amounts =>
      intro a mem
      rw [total_credits_concat]
      by_cases eq : pegin.evmAccount = a
      · subst eq
        rw [if_pos rfl, Finmap.lookup_insert]
      · rw [h.payees_eq room, Finset.mem_insert, or_iff_right (Ne.symm eq)] at mem
        rw [if_neg eq, Nat.add_zero, Finmap.lookup_insert_of_ne _ (Ne.symm eq), h.amounts a mem]
    case processed => rw [h.processed, h.listed_eq room, List.map_append]; rfl
  case isFalse full =>
    cases e
    rw [not_or, Nat.not_lt, ← Finmap.mem_keys, h.keys] at full
    have hpayees : payees (pegins ++ [pegin]) = payees pegins := by
      rw [payees_concat, capped.add, if_pos full.1]
    constructor
    case keys => rw [h.keys, hpayees]
    case amounts =>
      intro a mem
      rw [hpayees] at mem
      have ne : pegin.evmAccount ≠ a := fun eq => full.2 (eq ▸ mem)
      rw [total_credits_concat, if_neg ne, Nat.add_zero, h.amounts a mem]
    case processed =>
      rw [h.processed, listed, listed, hpayees, List.filter_append]
      simp [full.2]

end FilledBy

lemma lookup_foldl_erase {V : Type} {txids : List Txid} {m : Map Txid V} {txid : Txid} :
    (txids.foldl (fun m txid => m.erase txid) m).lookup txid =
      if txid ∈ txids then none else m.lookup txid := by
  induction txids generalizing m with
  | nil => simp
  | cons x txids ih =>
    rw [List.foldl_cons, ih]
    by_cases eq : txid = x
    · subst eq
      rw [Finmap.lookup_erase, ite_self, if_pos List.mem_cons_self]
    · simp [eq, Finmap.lookup_erase_ne eq]

variable {c : Chain} {federation : List Address}

/-- The queue without the entries whose transaction the wallet knows. -/
lemma Chain.lookup_removeProcessed {txid : Txid} :
    c.removeProcessed.queuedPegins.lookup txid =
      if (c.bitcoinWallet.getTx txid).isSome then none else c.queuedPegins.lookup txid := by
  simp only [removeProcessed, lookup_foldl_erase, List.mem_filter, mem_ordered]
  by_cases hknown : (c.bitcoinWallet.getTx txid).isSome
  · rw [if_pos hknown]
    split
    case isTrue => rfl
    case isFalse nmem =>
      exact Finmap.lookup_eq_none.mpr fun mem => nmem ⟨Finmap.mem_keys.mpr mem, hknown⟩
  · rw [if_neg hknown, if_neg fun mem => hknown mem.2]

/-- The pending peg-ins are those of the queue that the wallet does not know. -/
lemma Chain.mem_pendingPegins {pegin : PegInInfo} :
    pegin ∈ c.pendingPegins ↔ ∃ txid, c.queuedPegins.lookup txid = some pegin ∧
      c.bitcoinWallet.getTx txid = none := by
  simp only [pendingPegins, mem_queueValues, lookup_removeProcessed]
  refine exists_congr fun txid => ?_
  cases c.bitcoinWallet.getTx txid <;> simp

/-- The payment of each account that is paid: all its pending peg-ins, in gwei. -/
structure Pays (pegins : List PegInInfo) (payments : List (Address × Nat)) : Prop where
  mem_iff : ∀ {a n}, (a, n) ∈ payments ↔
    a ∈ payees pegins ∧ n = total (pegins.map (·.credit)) a * 10
  fits : ∀ {a n}, (a, n) ∈ payments → n < 2 ^ 64

lemma peginBalance_ok_iff {x y : Address × Nat} :
    peginBalance x = .ok y ↔ x.2 * 10 < 2 ^ 64 ∧ y = (x.1, x.2 * 10) := by
  simp only [peginBalance, fromSatoshi, bind_eq_ok_iff]
  constructor
  · rintro ⟨amount, hamount, e⟩
    cases e
    cases checkedU64_eq_ok hamount
    exact ⟨checkedU64_lt hamount, rfl⟩
  · rintro ⟨lt, rfl⟩
    exact ⟨_, checkedU64_of_lt lt, rfl⟩

variable {c c' : Chain} {pegins : List PegInInfo} {b : SignedConsensusBlock}

/-- `fill_pegins` returns what the loop over the pending peg-ins and the conversion to gwei give. -/
lemma fillPegins_ok_iff {balances balances' pegins} :
    fillPegins balances c = (.ok (balances', pegins), c') ↔ ∃ filled payments,
      c.pendingPegins.foldlM fillPegin ⟨∅, [], 0⟩ = .ok filled ∧
      (entries filled.withdrawals).mapM peginBalance = .ok payments ∧
      balances' = balances ++ payments ∧ pegins = filled.processedPegins ∧
      c' = c.removeProcessed := by
  simp only [fillPegins, Action.bind_ok_iff, Action.lift_ok_iff]
  constructor
  · rintro ⟨_, _, hget, _, _, hmodify, filled, _, ⟨hfilled, rfl⟩, payments, _, ⟨hpayments, rfl⟩, e⟩
    cases hget
    cases hmodify
    cases e
    exact ⟨filled, payments, hfilled, hpayments, rfl, rfl, rfl⟩
  · rintro ⟨filled, payments, hfilled, hpayments, rfl, rfl, rfl⟩
    exact ⟨c, c, rfl, (), c.removeProcessed, rfl, filled, _, ⟨hfilled, rfl⟩, payments, _,
      ⟨hpayments, rfl⟩, rfl⟩

/-- What `fill_pegins` adds to the balances and what it lists. -/
lemma fillPegins_ok {balances balances' pegins}
    (e : fillPegins balances c = (.ok (balances', pegins), c')) :
    c' = c.removeProcessed ∧
      pegins = (listed c.pendingPegins).map (fun pegin => (pegin.txid, pegin.blockHash)) ∧
      ∃ payments, balances' = balances ++ payments ∧ Pays c.pendingPegins payments := by
  obtain ⟨filled, payments, hfilled, hpayments, rfl, rfl, rfl⟩ := fillPegins_ok_iff.mp e
  have h : FilledBy c.pendingPegins filled :=
    foldlM_invariant hfilled ⟨rfl, nofun, rfl⟩ fun _ _ _ _ h e => h.step e
  refine ⟨rfl, h.processed, payments, rfl, ?_⟩
  have hmap : payments.map id = _ :=
    map_of_mapM_ok hpayments fun x y e => (peginBalance_ok_iff.mp e).2
  rw [List.map_id] at hmap
  constructor
  case mem_iff =>
    intro a n
    simp only [hmap, List.mem_map, Prod.exists, Prod.mk.injEq, mem_entries]
    constructor
    · rintro ⟨a, m, e, rfl, rfl⟩
      have mem : a ∈ payees c.pendingPegins := by
        rw [← h.keys]
        exact Finmap.mem_keys.mpr (Finmap.mem_of_lookup_eq_some e)
      rw [h.amounts a mem, Option.some.injEq] at e
      exact ⟨mem, by rw [e]⟩
    · rintro ⟨mem, rfl⟩
      exact ⟨a, _, h.amounts a mem, rfl, rfl⟩
  case fits =>
    intro a n mem
    obtain ⟨x, _, e⟩ := forall_of_mapM_ok hpayments _ mem
    obtain ⟨lt, e⟩ := peginBalance_ok_iff.mp e
    cases e
    exact lt

/-- The credits of the listed peg-ins. -/
lemma total_listed {a : Address} (mem : a ∈ payees pegins) :
    total ((listed pegins).map (·.credit)) a = total (pegins.map (·.credit)) a := by
  unfold listed
  generalize payees pegins = accounts at mem
  induction pegins with
  | nil => rfl
  | cons pegin pegins ih =>
    rw [List.filter_cons, List.map_cons, total_cons, ← ih]
    split
    case isTrue => rw [List.map_cons, total_cons]
    case isFalse nmem =>
      have ne : pegin.credit.1 ≠ a := by
        rintro rfl
        exact nmem (decide_eq_true mem)
      rw [if_neg ne, Nat.zero_add]

lemma mem_credits_listed {a : Address} :
    a ∈ ((listed pegins).map (·.credit)).map (·.1) ↔ a ∈ payees pegins := by
  simp only [listed, List.map_map, List.mem_map, List.mem_filter, decide_eq_true_eq,
    Function.comp_apply, PegInInfo.credit]
  constructor
  · rintro ⟨pegin, ⟨_, mem⟩, rfl⟩
    exact mem
  · intro mem
    obtain ⟨pegin, hp, rfl⟩ := List.mem_map.mp (List.mem_toFinset.mp (capped_subset mem))
    exact ⟨pegin, ⟨hp, mem⟩, rfl⟩

/-! ## What the producer builds -/

/-- What a proposed block contains. -/
structure Proposed (P : Primitives) (cfg : ChainConfig) (env : ProducerEnv) (c : Chain)
    (b : SignedConsensusBlock) : Prop where
  finalization : c.queuedFinalization P cfg =
    .ok (b.message.auxpowHeader, b.message.finalizedPegouts)
  payload : ∃ shares balances prevPayloadHead c', feeShares cfg c.storage b = .ok shares ∧
    fillPegins shares c = (.ok (balances, b.message.pegins), c') ∧
    env.buildBlock prevPayloadHead (balances.map toWithdrawal) = .ok b.message.executionPayload

/-- What a successful proposal on a parent returns. -/
lemma proposeOn_ok {P cfg env slot prev prevPayloadHead b}
    (e : proposeOn P cfg env slot prev prevPayloadHead c = (.ok (some b), c')) :
    Proposed P cfg env c b ∧ c' = c.removeProcessed := by
  simp only [proposeOn, Action.bind_ok_iff, Action.lift_ok_iff] at e
  obtain ⟨_, _, hget, ⟨queuedPow, finalizedPegouts⟩, _, ⟨hqueued, rfl⟩, shares, _, ⟨hshares, rfl⟩,
    ⟨balances, pegins⟩, _, hfill, e⟩ := e
  cases hget
  cases hbuild : env.buildBlock prevPayloadHead (balances.map toWithdrawal) with
  | error f =>
    simp only [hbuild] at e
    cases f <;> cases e
  | ok payload =>
    simp only [hbuild, Action.bind_ok_iff, Action.lift_ok_iff] at e
    obtain ⟨pegouts, _, ⟨_, rfl⟩, authority, _, ⟨_, rfl⟩, signedBlock, _, ⟨hsign, rfl⟩, e⟩ := e
    cases e
    have hmessage := (ConsensusBlock.signBlock_eq_ok hsign).1
    refine ⟨⟨?_, shares, balances, prevPayloadHead, c', ?_, ?_, ?_⟩, (fillPegins_ok hfill).1⟩
    · rw [hmessage, hqueued]
    · rw [← hshares, feeShares, hmessage]
      cases queuedPow <;> rfl
    · rw [hmessage, hfill]
    · rw [hmessage, hbuild]

/-- What a successful proposal returns (`proposeOn_ok`). -/
lemma proposeBlock_ok {P cfg env slot b} (e : proposeBlock P cfg env slot c = (.ok (some b), c')) :
    Proposed P cfg env c b ∧ c' = c.removeProcessed := by
  obtain ⟨_, _, hget, e⟩ := Action.bind_ok_iff.mp e
  cases hget
  cases hsync : c.syncStatus.isSynced with
  | false =>
    simp only [hsync] at e
    cases e
  | true =>
    cases hhead : c.head with
    | none =>
      simp only [hsync, hhead] at e
      exact proposeOn_ok e
    | some head =>
      simp only [hsync, hhead, Bool.not_true, Bool.false_eq_true, if_false, Action.bind_ok_iff,
        Action.lift_ok_iff] at e
      obtain ⟨prev, _, ⟨_, rfl⟩, available, _, ⟨_, rfl⟩, e⟩ := e
      cases available with
      | true => exact proposeOn_ok e
      | false =>
        obtain ⟨_, _, _, e⟩ := Action.bind_ok_iff.mp e
        cases e

/-! ## Honest withdrawals -/

/-- A block lists the peg-ins that `fill_pegins` returns, and its payload pays the balances of
`split_fees` followed by `fill_pegins`. -/
def Carries (cfg : ChainConfig) (c : Chain) (b : SignedConsensusBlock) : Prop :=
  ∃ shares balances c', feeShares cfg c.storage b = .ok shares ∧
    fillPegins shares c = (.ok (balances, b.message.pegins), c') ∧
    b.message.executionPayload.withdrawals = balances.map toWithdrawal

/-- Such a block is what the producer proposes, if the execution layer takes the withdrawals over.
-/
lemma Proposed.carries {P cfg env} (h : Proposed P cfg env c b)
    (hbuild : ∀ head withdrawals payload,
      env.buildBlock head withdrawals = .ok payload → payload.withdrawals = withdrawals) :
    Carries cfg c b := by
  obtain ⟨shares, balances, head, c', hshares, hfill, hpayload⟩ := h.payload
  exact ⟨shares, balances, c', hshares, hfill, hbuild _ _ _ hpayload⟩

/-- Each queued peg-in is stored under its transaction. -/
def Chain.QueueKeyed (c : Chain) : Prop :=
  ∀ txid pegin, c.queuedPegins.lookup txid = some pegin → pegin.txid = txid

/-- The bridge resolves the peg-ins that a block lists to the queued information. -/
def ResolvesListed (P : Primitives) (cfg : ChainConfig) (rpc : BitcoinRpc) (c : Chain)
    (b : SignedConsensusBlock) : Prop :=
  ∀ pegin ∈ c.pendingPegins, (pegin.txid, pegin.blockHash) ∈ b.message.pegins →
    cfg.bridge.getConfirmedPeginFromTxid P rpc pegin.txid pegin.blockHash = .ok pegin

/-- An account receives a share and a payment for peg-ins, in satoshi, and the sum of both is not
itself the share of the miner. -/
def Collides (federation : List Address) (fees : Nat) (miner a : Address) (amount : Nat) : Prop :=
  amount ≠ 0 ∧
    (a ∈ federation ∧ memberShare federation fees ≠ 0 ∧
        ¬ (a = miner ∧ minerShare fees = memberShare federation fees + amount * 10) ∨
      a ∉ federation ∧ a = miner ∧ minerShare fees ≠ 0)

/-- The entries of a block that pays the shares and the peg-ins one after the other. -/
lemma listsEntries_iff {shares payments : List (Address × Nat)} (hpays : Pays pegins payments)
    (hfits : ∀ share ∈ shares, share.2 < 2 ^ 64) :
    ListsEntries shares ((listed pegins).map (·.credit)) ((shares ++ payments).map toWithdrawal) ↔
      ∀ a ∈ payees pegins, (latest shares a).getD 0 = 0 ∨
        (a, (latest shares a).getD 0 + total (pegins.map (·.credit)) a * 10) ∈ shares := by
  have hmem : ∀ {a n}, (⟨a, n⟩ : Withdrawal) ∈ (shares ++ payments).map toWithdrawal ↔
      (a, n) ∈ shares ∨ (a, n) ∈ payments := by
    intro a n
    simp [toWithdrawal]
  have hmerged : ∀ a ∈ payees pegins, merged shares ((listed pegins).map (·.credit)) a =
      (latest shares a).getD 0 + total (pegins.map (·.credit)) a * 10 := by
    intro a mem
    rw [merged, total_listed mem]
  constructor
  · rintro ⟨_, hlist⟩ a mem
    have hentry := hlist a (mem_recipients.mpr (.inr (mem_credits_listed.mpr mem)))
    rw [hmerged a mem, hmem, hpays.mem_iff] at hentry
    rcases hentry with h | ⟨_, h⟩
    · exact .inr h
    · exact .inl (by omega)
  · intro hpaid
    have hentry : ∀ a ∈ payees pegins,
        (a, merged shares ((listed pegins).map (·.credit)) a) ∈ shares ∨
          (a, merged shares ((listed pegins).map (·.credit)) a) ∈ payments := by
      intro a mem
      rw [hmerged a mem]
      rcases hpaid a mem with h | h
      · exact .inr (hpays.mem_iff.mpr ⟨mem, by rw [h, Nat.zero_add]⟩)
      · exact .inl h
    refine ⟨fun a mem => ?_, fun a mem => hmem.mpr ?_⟩
    · rcases hentry a (mem_credits_listed.mp mem) with h | h
      · exact hfits _ h
      · exact hpays.fits h
    · by_cases hpayee : a ∈ payees pegins
      · exact hentry a hpayee
      · -- an account without a peg-in: its last share stands in the list
        have hcredit : a ∉ ((listed pegins).map (·.credit)).map (·.1) := fun h =>
          hpayee (mem_credits_listed.mp h)
        have hshare := (mem_recipients.mp mem).resolve_right hcredit
        obtain ⟨n, hn⟩ := Option.isSome_iff_exists.mp (latest_isSome.mpr hshare)
        rw [merged, total_eq_zero hcredit, hn]
        exact .inl (mem_of_latest hn)

/-- The last share of an account. -/
lemma latest_shares {miner a : Address} {m n : Nat} :
    latest ((miner, m) :: federation.map fun address => (address, n)) a =
      if a ∈ federation then some n else if a = miner then some m else none := by
  have hmembers : latest (federation.map fun address => (address, n)) a =
      if a ∈ federation then some n else none := by
    induction federation with
    | nil => rfl
    | cons x federation ih =>
      rw [List.map_cons, latest_cons, ih]
      by_cases mem : a ∈ federation
      · simp [mem]
      · simp [mem, eq_comm]
  rw [latest_cons, hmembers]
  by_cases mem : a ∈ federation
  · simp [mem]
  · simp [mem, eq_comm]

/-- When an account's entry is one of the shares or has no share. -/
lemma not_collides_iff {fees amount : Nat} {miner a : Address} {shares}
    (e : splitFees federation fees miner = .ok shares) :
    ¬ Collides federation fees miner a amount ↔
      (latest shares a).getD 0 = 0 ∨ (a, (latest shares a).getD 0 + amount * 10) ∈ shares := by
  obtain ⟨⟨rfl, rfl⟩ | ⟨_, _, rfl⟩, _⟩ := splitFees_ok e
  · simp [Collides, minerShare, memberShare, latest]
  · rw [latest_shares, Collides]
    generalize minerShare fees = m
    generalize memberShare federation fees = n
    have hmem : ∀ k, (a, k) ∈ (miner, m) :: federation.map (fun address => (address, n)) ↔
        a = miner ∧ k = m ∨ a ∈ federation ∧ k = n := by
      intro k
      rw [List.mem_cons, Prod.mk.injEq, List.mem_map]
      refine or_congr_right ⟨?_, fun h => ⟨a, h.1, by rw [h.2]⟩⟩
      rintro ⟨_, mem, e⟩
      cases e
      exact ⟨mem, rfl⟩
    have hself : ∀ k, k + amount * 10 = k ↔ amount = 0 := by omega
    rw [hmem]
    by_cases mem : a ∈ federation
    · rw [if_pos mem, Option.getD_some, hself, eq_comm (a := m)]
      generalize (a = miner ∧ n + amount * 10 = m) = same
      simp only [mem, not_true_eq_false, true_and, false_and, or_false, ne_eq, not_and_or, not_not]
      rw [or_comm, or_assoc]
    · by_cases hm : a = miner
      · subst hm
        rw [if_neg mem, if_pos rfl, Option.getD_some, hself]
        simp only [mem, not_false_eq_true, true_and, false_and, false_or, or_false, ne_eq,
          not_and_or, not_not]
        exact or_comm
      · simp [mem, hm]

/-- The listed peg-ins are new to the wallet and their credits are the queued ones. -/
lemma listed_resolved {P cfg rpc} (hqueue : c.QueueKeyed) (hpegins : b.message.pegins =
      (listed c.pendingPegins).map fun pegin => (pegin.txid, pegin.blockHash))
    (hres : ResolvesListed P cfg rpc c b) :
    PeginsResolved P cfg rpc c.bitcoinWallet b ∧
      peginCredits P cfg rpc b = (listed c.pendingPegins).map (·.credit) := by
  have hall : ∀ pegin ∈ listed c.pendingPegins, c.bitcoinWallet.getTx pegin.txid = none ∧
      cfg.bridge.getConfirmedPeginFromTxid P rpc pegin.txid pegin.blockHash = .ok pegin := by
    intro pegin mem
    have hpending := (List.mem_filter.mp mem).1
    obtain ⟨txid, hlookup, hnew⟩ := Chain.mem_pendingPegins.mp hpending
    refine ⟨by rw [hqueue txid pegin hlookup]; exact hnew, hres pegin hpending ?_⟩
    rw [hpegins]
    exact List.mem_map_of_mem mem
  constructor
  · intro x mem
    rw [hpegins] at mem
    obtain ⟨pegin, hp, rfl⟩ := List.mem_map.mp mem
    exact ⟨(hall pegin hp).1, pegin, (hall pegin hp).2⟩
  · rw [peginCredits, hpegins, List.filterMap_map, ← List.filterMap_eq_map]
    refine List.filterMap_congr fun pegin hp => ?_
    simp only [Function.comp_apply, (hall pegin hp).2]
    rfl

/-- The withdrawals of an honest producer are accepted by a node with its wallet and its store if
and only if no account that is paid for pending peg-ins collides with a recipient of the fees. -/
theorem carried_accepted_iff {P : Primitives} {cfg : ChainConfig} {rpc : BitcoinRpc} {c : Chain}
    {b : SignedConsensusBlock} (hqueue : c.QueueKeyed) (hb : Carries cfg c b)
    (hres : ResolvesListed P cfg rpc c b) :
    checkWithdrawals P cfg rpc c.storage c.bitcoinWallet b = .ok () ↔
      ∀ pow fees, b.message.auxpowHeader = some pow →
        c.storage.blockFees.lookup b.message.parentHash = some fees →
        ∀ a ∈ payees c.pendingPegins, ¬ Collides cfg.federation fees pow.feeRecipient a
          (total (c.pendingPegins.map (·.credit)) a) := by
  obtain ⟨shares, balances, c', hshares, hfill, hpayload⟩ := hb
  obtain ⟨_, hpegins, payments, rfl, hpays⟩ := fillPegins_ok hfill
  obtain ⟨hresolved, hcredits⟩ := listed_resolved hqueue hpegins hres
  rw [checkWithdrawals_ok_iff hresolved, hcredits, hpayload, hshares]
  simp only [Except.ok.injEq, exists_eq_left']
  cases hpow : b.message.auxpowHeader with
  | none =>
    simp only [feeShares, hpow, Except.ok.injEq] at hshares
    subst hshares
    rw [listsEntries_iff hpays (by simp)]
    simp [latest]
  | some pow =>
    simp only [feeShares, hpow, bind_eq_ok_iff, Storage.queuedFees, okOr_eq_ok_iff] at hshares
    obtain ⟨fees, hfees, hsplit⟩ := hshares
    rw [listsEntries_iff hpays (splitFees_ok hsplit).2, hfees]
    constructor
    · rintro hpaid _ _ ⟨⟩ ⟨⟩ a mem
      exact (not_collides_iff hsplit).mpr (hpaid a mem)
    · intro apart a mem
      exact (not_collides_iff hsplit).mp (apart pow fees rfl rfl a mem)

/-- An execution layer that builds a block of the given number with the withdrawals it is asked for.
-/
def ProducerEnv.toy (env : Env) (number : Nat) : ProducerEnv where
  toEnv := env
  payloadAvailable _ := some true
  buildBlock _ withdrawals := .ok ⟨[], [], number, 0, withdrawals, []⟩
  createPayment _ _ := .error (.error .genericError)

/-- A validator with a genesis block whose fees are 100 gwei, a deposit of 1000 satoshi for account
7 in the queue, and an AuxPow over the genesis block of the given miner. -/
def Chain.toyQueued (feeRecipient : Address) : Chain :=
  { (storeGenesis .toy (.toy 1 0) .toyFees ⟨0x1d00ffff, 1⟩ (.toy 0)
      (Chain.new .empty .empty)).2 with
    queuedPow := some { AuxPowHeader.toy (toyRoot 0 0) with feeRecipient }
    queuedPegins := Finmap.singleton [1] ⟨[1], [], 1000, [7], 1⟩ }

lemma Chain.toyQueued_queueKeyed (feeRecipient : Address) :
    (toyQueued feeRecipient).QueueKeyed := by
  intro txid pegin e
  have mem := Finmap.mem_of_lookup_eq_some e
  rw [toyQueued, Finmap.mem_singleton] at mem
  subst mem
  cases e
  rfl

lemma Chain.toyQueued_proposes (feeRecipient : Address) :
    ∃ b c', proposeBlock .toy (.toy 1 0) (.toy .toyFees 1) 1 (toyQueued feeRecipient) =
      (.ok (some b), c') :=
  ⟨_, _, rfl⟩

lemma Proposed.of_toyQueued {feeRecipient : Address}
    (h : Proposed .toy (.toy 1 0) (.toy .toyFees 1) (Chain.toyQueued feeRecipient) b) :
    Carries (.toy 1 0) (Chain.toyQueued feeRecipient) b ∧
      ResolvesListed .toy (.toy 1 0) .toy (Chain.toyQueued feeRecipient) b := by
  constructor
  · refine h.carries fun head withdrawals payload e => ?_
    cases e
    rfl
  · intro pegin mem _
    have hpending : (Chain.toyQueued feeRecipient).pendingPegins = [⟨[1], [], 1000, [7], 1⟩] := rfl
    rw [hpending, List.mem_singleton] at mem
    subst mem
    rfl

/-- The miner has another account than the depositor. -/
theorem carried_accepted_other_miner :
    ∃ b, (proposeBlock .toy (.toy 1 0) (.toy .toyFees 1) 1 (Chain.toyQueued [9])).1 = .ok (some b) ∧
      b.message.pegins = [([1], [])] ∧
      checkWithdrawals .toy (.toy 1 0) .toy (Chain.toyQueued [9]).storage .empty b = .ok () := by
  obtain ⟨b, c', e⟩ := Chain.toyQueued_proposes [9]
  have proposed := (proposeBlock_ok e).1
  obtain ⟨hb, hres⟩ := proposed.of_toyQueued
  refine ⟨b, by rw [e], ?_, (carried_accepted_iff (Chain.toyQueued_queueKeyed [9]) hb hres).mpr ?_⟩
  · obtain ⟨_, _, _, _, _, hfill, _⟩ := proposed.payload
    exact (fillPegins_ok hfill).2.1.trans rfl
  · intro pow fees hpow _ a mem
    have hfin : (Chain.toyQueued [9]).queuedFinalization .toy (.toy 1 0) =
        .ok (some (.toy (toyRoot 0 0)), []) := rfl
    have hminer := proposed.finalization
    simp only [hfin, hpow, Except.ok.injEq, Prod.mk.injEq, Option.some.injEq] at hminer
    have hpayees : payees (Chain.toyQueued [9]).pendingPegins = {[7]} := by decide
    rw [hpayees, Finset.mem_singleton] at mem
    subst mem
    rw [← hminer.1]
    simp [Collides, ChainConfig.toy, AuxPowHeader.toy]

/-- The miner is the depositor: the producer pays a share and a deposit, the check asks for their
sum. -/
theorem carried_accepted_fails :
    ¬ ∀ (P : Primitives) (cfg : ChainConfig) (rpc : BitcoinRpc) (c : Chain)
      (b : SignedConsensusBlock), c.QueueKeyed → Carries cfg c b → ResolvesListed P cfg rpc c b →
      checkWithdrawals P cfg rpc c.storage c.bitcoinWallet b = .ok () := by
  intro all
  obtain ⟨b, c', e⟩ := Chain.toyQueued_proposes [7]
  obtain ⟨hb, hres⟩ := (proposeBlock_ok e).1.of_toyQueued
  have accepted := all _ _ _ _ b (Chain.toyQueued_queueKeyed [7]) hb hres
  have rejected : (match (proposeBlock .toy (.toy 1 0) (.toy .toyFees 1) 1
      (Chain.toyQueued [7])).1 with
    | .ok (some b) => decide (checkWithdrawals .toy (.toy 1 0) .toy (Chain.toyQueued [7]).storage
        .empty b = .ok ())
    | _ => true) = false := by decide
  rw [e] at rejected
  exact of_decide_eq_false rejected accepted

/-! ## Honest finalization -/

/-- The finalized peg-outs of a block are the proposals in the range of its AuxPow, in order; there
are none without an AuxPow. -/
def FinalizesRange (P : Primitives) (s : Storage) (b : SignedConsensusBlock) : Prop :=
  match b.message.auxpowHeader with
  | none => b.message.finalizedPegouts = []
  | some pow => ∃ proposals,
    s.getBitcoinPaymentProposalsInRange pow.rangeStart pow.rangeEnd = .ok proposals ∧
      b.message.finalizedPegouts.map P.txid = proposals.map P.txid

/-- The collector is complete for every proposal in the range of the queued AuxPow. -/
def Chain.RangeComplete (P : Primitives) (cfg : ChainConfig) (c : Chain) : Prop :=
  ∀ pow proposals, c.queuedPow = some pow →
    c.storage.getBitcoinPaymentProposalsInRange pow.rangeStart pow.rangeEnd = .ok proposals →
    ∀ tx ∈ proposals, c.bitcoinSignatureCollector.Complete cfg.bitcoinFederation (P.txid tx)

/-- When a proposed block finalizes all of its range. -/
lemma Proposed.finalizesRange_iff {P cfg env} (h : Proposed P cfg env c b)
    (hP : TxidIgnoresWitnesses P) (hkeyed : c.bitcoinSignatureCollector.Keyed P) :
    FinalizesRange P c.storage b ↔ c.RangeComplete P cfg := by
  unfold Chain.RangeComplete
  have hfin := h.finalization
  cases hpow : c.queuedPow with
  | none =>
    simp only [Chain.queuedFinalization, hpow, Except.ok.injEq, Prod.mk.injEq] at hfin
    simp [FinalizesRange, ← hfin.1, ← hfin.2]
  | some pow =>
    simp only [Chain.queuedFinalization, hpow, bind_eq_ok_iff] at hfin
    obtain ⟨proposals, hrange, hfin⟩ := hfin
    simp only [pure, Except.pure, Except.ok.injEq, Prod.mk.injEq] at hfin
    -- a finalized transaction has the hash of its proposal, so that the two lists agree only if no
    -- proposal is skipped
    let finalizedTxid : Transaction → Option Txid := fun tx =>
      (c.bitcoinSignatureCollector.getFinalized cfg.bitcoinFederation
        (P.txid tx)).toOption.map P.txid
    have hcases := fun tx => hkeyed.finalizedTxid hP cfg.bitcoinFederation (P.txid tx)
    have hfinalizes : FinalizesRange P c.storage b ↔
        proposals.filterMap finalizedTxid = proposals.filterMap fun tx => some (P.txid tx) := by
      simp only [FinalizesRange, ← hfin.1, ← hfin.2, hrange, Except.ok.injEq, exists_eq_left',
        List.map_filterMap, List.filterMap_eq_map']
      rfl
    rw [hfinalizes]
    constructor
    · rintro eq _ _ ⟨⟩ hrange' tx mem
      rw [hrange, Except.ok.injEq] at hrange'
      subst hrange'
      have hsome : finalizedTxid tx = some (P.txid tx) :=
        filterMap_eq_of_imp (fun tx _ => (hcases tx).symm.imp And.right And.right) eq tx mem
      rcases hcases tx with h | h
      · exact h.1
      · cases h.2.symm.trans hsome
    · intro h
      refine List.filterMap_congr fun tx mem => ?_
      rcases hcases tx with h' | h'
      · exact h'.2
      · exact absurd (h pow proposals rfl hrange tx mem) h'.1

/-- A validator checks that a block finalizes what its AuxPow requires. -/
lemma checkAuxPow_finalizesRange {P cfg s w} (hval : cfg.isValidator = true)
    (e : checkAuxPow P cfg s w b = .ok ()) :
    FinalizesRange P s b := by
  unfold checkAuxPow at e
  unfold FinalizesRange
  cases hpow : b.message.auxpowHeader with
  | none =>
    simp only [hpow, checkNoFinalization, bind_eq_ok_iff] at e
    obtain ⟨_, _, e⟩ := e
    split at e
    case isTrue => cases e
    case isFalse =>
      split at e
      case isTrue => cases e
      case isFalse h => simpa using h
  | some pow =>
    simp only [hpow] at e
    obtain ⟨_, proposals, hrange, _, htxids⟩ := checkFinalization_ok e
    exact ⟨proposals, hrange, htxids hval⟩

/-- A produced block was proposed and passed validation. -/
lemma produceBlock_ok {P cfg env slot b} (e : produceBlock P cfg env slot c = (.ok (some b), c')) :
    Proposed P cfg env c b ∧
      ∃ missing, Validated P cfg env.toEnv b c.removeProcessed.core missing := by
  obtain ⟨proposed, c₁, hpropose, e⟩ := Action.bind_ok_iff.mp e
  cases proposed with
  | none => cases e
  | some b' =>
    obtain ⟨approval, c₂, hprocess, e⟩ := Action.bind_ok_iff.mp e
    cases approval with
    | none => cases e
    | some approval =>
      cases e
      obtain ⟨proposed, rfl⟩ := proposeBlock_ok hpropose
      refine ⟨proposed, ?_⟩
      have hprocess : processBlock P cfg env.toEnv b c.removeProcessed = (.ok approval, c') := by
        unfold ChainM.logErr at hprocess
        split at hprocess
        case h_1 h =>
          cases hprocess
          exact h
        case h_2 => cases hprocess
        case h_3 => cases hprocess
      obtain ⟨_, _, hvalid, _⟩ := Action.bind_ok_iff.mp hprocess
      obtain ⟨missing, valid, _⟩ | ⟨_, _, _, h⟩ :=
        @validateBlock_cases P cfg env.toEnv b c.removeProcessed
      · exact ⟨missing, valid⟩
      · cases h.symm.trans hvalid

/-- A validator without enough signatures for a proposal publishes no block. -/
lemma produceBlock_rangeComplete {P cfg env slot b} (hP : TxidIgnoresWitnesses P)
    (hkeyed : c.bitcoinSignatureCollector.Keyed P) (hval : cfg.isValidator = true)
    (e : produceBlock P cfg env slot c = (.ok (some b), c')) : c.RangeComplete P cfg := by
  obtain ⟨proposed, _, valid⟩ := produceBlock_ok e
  exact (proposed.finalizesRange_iff hP hkeyed).mp (checkAuxPow_finalizesRange hval valid.auxPow)

/-- A proposed block finalizes what its AuxPow requires if and only if the collector is complete for
every proposal in the range of the queued AuxPow. -/
theorem proposed_finalizes_iff {P : Primitives} {cfg : ChainConfig} {env : ProducerEnv} {slot : Nat}
    {c c' : Chain} {b : SignedConsensusBlock} (hP : TxidIgnoresWitnesses P)
    (hkeyed : c.bitcoinSignatureCollector.Keyed P)
    (e : proposeBlock P cfg env slot c = (.ok (some b), c')) :
    FinalizesRange P c.storage b ↔ c.RangeComplete P cfg :=
  (proposeBlock_ok e).1.finalizesRange_iff hP hkeyed

/-- A validator that has imported a peg-out proposal and is given an AuxPow over its block. -/
def Chain.toyProposed : Chain :=
  { (Event.block .toy (.toyPegout 1 500 ⟨[1], 0⟩)).apply .toy (.toy 1 0) Chain.toyGenesis with
    queuedPow := some (.toy (toyRoot 1 0)) }

/-- Two members sign the proposal. -/
def Chain.toySigned : Chain :=
  { Chain.toyProposed with
    bitcoinSignatureCollector := collect .toy .toy Chain.toyProposed.bitcoinWallet [1, 1]
      [([1], toySignatures), ([3], toySignatures)] }

lemma Primitives.toy_txidIgnoresWitnesses : TxidIgnoresWitnesses .toy := by
  intro tx
  simp [Primitives.toy, Transaction.unsigned, List.flatMap_map]

lemma Chain.toySigned_keyed : toySigned.bitcoinSignatureCollector.Keyed .toy := by
  have hwallet : ∀ txid tx, toyProposed.bitcoinWallet.getTransaction txid = .ok tx →
      Primitives.toy.txid tx = txid := by
    intro txid tx e
    have hkeys : toyProposed.bitcoinWallet.rawTxs.keys = {[1, 1]} := by decide
    have htxid : (toyProposed.bitcoinWallet.rawTxs.lookup [1, 1]).map Primitives.toy.txid =
        some [1, 1] := by decide
    unfold UtxoManager.getTransaction at e
    split at e
    case h_1 => cases e
    case h_2 tx' h =>
      cases e
      have mem := Finmap.mem_keys.mpr (Finmap.mem_of_lookup_eq_some h)
      rw [hkeys, Finset.mem_singleton] at mem
      subst mem
      rw [h] at htxid
      exact Option.some.inj htxid
  exact (BitcoinSignatureCollector.keyed_empty.addSignature hwallet).addSignature hwallet

/-- A node that collected the signatures. -/
theorem proposed_finalizes_signed :
    ∃ b, (proposeBlock .toy (.toy 1 0) (.toy .toy 2) 2 Chain.toySigned).1 = .ok (some b) ∧
      FinalizesRange .toy Chain.toySigned.storage b := by
  have hproposal : (Chain.toySigned.storage.getBitcoinPaymentProposalsInRange (toyRoot 1 0)
      (toyRoot 1 0)).map (List.map Primitives.toy.txid) = .ok [[1, 1]] := rfl
  obtain ⟨b, c', e⟩ : ∃ b c', proposeBlock .toy (.toy 1 0) (.toy .toy 2) 2 Chain.toySigned =
      (.ok (some b), c') := ⟨_, _, rfl⟩
  refine ⟨b, by rw [e], (proposed_finalizes_iff Primitives.toy_txidIgnoresWitnesses
    Chain.toySigned_keyed e).mpr ?_⟩
  rintro _ proposals ⟨⟩ hrange tx mem
  have htxid : Primitives.toy.txid tx ∈ [[1, 1]] := by
    have hmap := (congrArg (Except.map (List.map Primitives.toy.txid)) hrange).symm.trans hproposal
    rw [← Except.ok.inj hmap]
    exact List.mem_map_of_mem mem
  rw [List.mem_singleton.mp htxid]
  exact BitcoinSignatureCollector.getFinalized_ok_iff.mp ⟨_, rfl⟩

/-- Nobody has signed: the producer includes the AuxPow without the proposal in its range. -/
theorem proposed_finalizes_fails :
    ¬ ∀ (P : Primitives) (cfg : ChainConfig) (env : ProducerEnv) (slot : Nat) (c c' : Chain)
      (b : SignedConsensusBlock), TxidIgnoresWitnesses P →
      c.bitcoinSignatureCollector.Keyed P →
      (∀ pow ∈ c.queuedPow, ∃ proposals,
        c.storage.getBitcoinPaymentProposalsInRange pow.rangeStart pow.rangeEnd = .ok proposals) →
      proposeBlock P cfg env slot c = (.ok (some b), c') → FinalizesRange P c.storage b := by
  intro all
  obtain ⟨b, c', e⟩ : ∃ b c', proposeBlock .toy (.toy 1 0) (.toy .toy 2) 2 Chain.toyProposed =
      (.ok (some b), c') := ⟨_, _, rfl⟩
  have hrange : ∃ proposals, Chain.toyProposed.storage.getBitcoinPaymentProposalsInRange
      (toyRoot 1 0) (toyRoot 1 0) = .ok proposals ∧ proposals.length = 1 := ⟨_, rfl, rfl⟩
  obtain ⟨proposals, hrange, hlen⟩ := hrange
  have hfin : Chain.toyProposed.queuedFinalization .toy (.toy 1 0) =
      .ok (some (.toy (toyRoot 1 0)), []) := rfl
  have hblock := (proposeBlock_ok e).1.finalization
  simp only [hfin, Except.ok.injEq, Prod.mk.injEq] at hblock
  have hkeyed : Chain.toyProposed.bitcoinSignatureCollector.Keyed .toy :=
    BitcoinSignatureCollector.keyed_empty
  have finalizes := all _ _ _ _ _ _ b Primitives.toy_txidIgnoresWitnesses hkeyed
    (by rintro _ ⟨⟩; exact ⟨proposals, hrange⟩) e
  simp only [FinalizesRange, ← hblock.1, ← hblock.2] at finalizes
  obtain ⟨proposals', hrange', h⟩ := finalizes
  cases hrange.symm.trans hrange'
  have hlen' := congrArg List.length h
  simp [hlen] at hlen'

end Alys
