import Alys.Chain.State
import Alys.Lib.Collect
import Alys.Lib.Ledger

/-!
# Withdrawals

Model of `split_fees` and `check_withdrawals` in `app/src/chain.rs` and of `ConsensusAmount` in
`app/src/engine.rs`. The amounts that a block has to pay out are merged in a map: the fee shares are
collected into it, so that of two shares of one address the later one stays, and each listed peg-in
is added to the entry of its account. Every withdrawal of the payload that is exactly an entry then
removes it, all others are passed over, and the check succeeds if no entry is left.
`checkWithdrawals_ok_iff` says so of the inputs. The totals that the block owes are what is checked
if the payments are plain (`checkWithdrawals_exact`).
-/

namespace Alys
open Lib

/-! ## Amounts -/

/-- `ConsensusAmount::from_wei`, in gwei. -/
def fromWei (amount : Nat) : Except Failure Nat := checkedU64 (amount / 10 ^ 9)

/-- `ConsensusAmount::from_satoshi`, in gwei. -/
def fromSatoshi (amount : Nat) : Except Failure Nat := checkedU64 (amount * 10)

/-- The shares of the miner and of the federation's members (Rust `Chain::split_fees`). -/
def splitFees (federation : List Address) (fees : Nat) (minerAddress : Address) :
    Except Failure (List (Address × Nat)) :=
  if fees = 0 then
    .ok []
  else do
    let minerFee := (← checkedU256 (fees * 80)) / 100
    if federation.length = 0 then
      throw .panic
    let federationFee := (fees - minerFee) / federation.length
    let minerAmount ← fromWei minerFee
    let shares ← federation.mapM fun address => do return (address, ← fromWei federationFee)
    return (minerAddress, minerAmount) :: shares

/-- The share of the miner, in gwei. -/
def minerShare (fees : Nat) : Nat := fees * 80 / 100 / 10 ^ 9

/-- The share of each member of the federation, in gwei. -/
def memberShare (federation : List Address) (fees : Nat) : Nat :=
  (fees - fees * 80 / 100) / federation.length / 10 ^ 9

/-- The shares, if there are fees: that of the miner and one for each member. -/
lemma splitFees_ok {federation : List Address} {fees : Nat} {minerAddress : Address} {shares}
    (e : splitFees federation fees minerAddress = .ok shares) :
    (fees = 0 ∧ shares = [] ∨ fees ≠ 0 ∧ federation ≠ [] ∧
      shares = (minerAddress, minerShare fees) ::
        federation.map fun address => (address, memberShare federation fees)) ∧
      ∀ share ∈ shares, share.2 < 2 ^ 64 := by
  unfold splitFees at e
  split at e
  case isTrue h0 =>
    cases e
    exact ⟨.inl ⟨h0, rfl⟩, nofun⟩
  case isFalse h0 =>
    simp only [bind_eq_ok_iff] at e
    obtain ⟨_, hmul, e⟩ := e
    cases checkedU256_eq_ok hmul
    split at e
    case isTrue => cases e
    case isFalse hn =>
      simp only [bind_eq_ok_iff] at e
      obtain ⟨minerAmount, hminer, rest, hrest, e⟩ := e
      cases e
      have hmember : ∀ address share,
          (do return (address, ← fromWei ((fees - fees * 80 / 100) / federation.length)) :
            Except Failure (Address × Nat)) = .ok share →
          share = (address, memberShare federation fees) ∧ share.2 < 2 ^ 64 := by
        intro address share e
        obtain ⟨amount, hamount, e⟩ := bind_eq_ok_iff.mp e
        cases e
        cases checkedU64_eq_ok hamount
        exact ⟨rfl, checkedU64_lt hamount⟩
      have hshares : rest.map id = _ :=
        map_of_mapM_ok hrest fun address share e => (hmember address share e).1
      rw [List.map_id] at hshares
      cases checkedU64_eq_ok hminer
      refine ⟨.inr ⟨h0, fun h => hn (by rw [h]; rfl), by rw [hshares]; rfl⟩, ?_⟩
      refine List.forall_mem_cons.mpr ⟨checkedU64_lt hminer, fun share mem => ?_⟩
      obtain ⟨address, _, e⟩ := forall_of_mapM_ok hrest share mem
      exact (hmember address share e).2

/-! ## The check -/

/-- The fee shares that a block has to pay: none without an AuxPow header. -/
def feeShares (cfg : ChainConfig) (s : Storage) (block : SignedConsensusBlock) :
    Except Failure (List (Address × Nat)) :=
  match block.message.auxpowHeader with
  | none => .ok []
  | some header => do
    splitFees cfg.federation (← s.queuedFees block.message.parentHash) header.feeRecipient

/-- Adds an amount of satoshi to the entry of an account. -/
def addCredit (expected : Map Address Nat) (credit : Address × Nat) :
    Except Failure (Map Address Nat) := do
  let amount ← fromSatoshi credit.2
  let sum ← checkedU64 ((expected.lookup credit.1).getD 0 + amount)
  return expected.insert credit.1 sum

/-- The body of the loop over the listed peg-ins. -/
def expectPegin (P : Primitives) (cfg : ChainConfig) (rpc : BitcoinRpc) (w : UtxoManager)
    (expected : Map Address Nat) (pegin : Txid × BlockHash) : Except Failure (Map Address Nat) := do
  if (w.getTx pegin.1).isSome then
    throw (.error .pegInAlreadyIncluded)
  let info ← liftFederation (cfg.bridge.getConfirmedPeginFromTxid P rpc pegin.1 pegin.2)
  addCredit expected (info.evmAccount, info.amount)

/-- The body of the loop over the withdrawals. -/
def removeExpected (expected : Map Address Nat) (withdrawal : Withdrawal) : Map Address Nat :=
  if expected.lookup withdrawal.address = some withdrawal.amount then
    expected.erase withdrawal.address
  else
    expected

/-- `Chain::check_withdrawals`. -/
def checkWithdrawals (P : Primitives) (cfg : ChainConfig) (rpc : BitcoinRpc) (s : Storage)
    (w : UtxoManager) (block : SignedConsensusBlock) : Except Failure Unit := do
  let expected := ofPairs (← feeShares cfg s block)
  let expected ← block.message.pegins.foldlM (expectPegin P cfg rpc w) expected
  let expected := block.message.executionPayload.withdrawals.foldl removeExpected expected
  if expected.keys = ∅ then
    return
  else
    throw (.error .unknownWithdrawal)

/-! ## What is accepted -/

variable {a : Address} {ws : List Withdrawal} {block : SignedConsensusBlock}

/-- An entry is left exactly when no withdrawal is equal to it. -/
lemma lookup_foldl_removeExpected {m : Map Address Nat} :
    (ws.foldl removeExpected m).lookup a =
      if ∃ n, m.lookup a = some n ∧ ⟨a, n⟩ ∈ ws then none else m.lookup a := by
  induction ws generalizing m with
  | nil => simp
  | cons x ws ih =>
    rw [List.foldl_cons, ih]
    unfold removeExpected
    split
    case isTrue h =>
      by_cases eq : x.address = a
      · subst eq
        simp [h, Finmap.lookup_erase]
      · have ne : ∀ n, (⟨a, n⟩ : Withdrawal) ≠ x := fun n e => eq (by rw [← e])
        simp [Finmap.lookup_erase_ne (Ne.symm eq), ne]
    case isFalse h =>
      by_cases hw : ∃ n, m.lookup a = some n ∧ ⟨a, n⟩ ∈ ws
      · obtain ⟨n, hn, mem⟩ := hw
        rw [if_pos ⟨n, hn, mem⟩, if_pos ⟨n, hn, List.mem_cons_of_mem _ mem⟩]
      · rw [if_neg hw, if_neg]
        rintro ⟨n, hn, mem⟩
        rcases List.mem_cons.mp mem with rfl | mem
        · exact h hn
        · exact hw ⟨n, hn, mem⟩

/-- The amount of a listed account: what the map held and all credits to it, in gwei. -/
lemma foldlM_addCredit (credits : List (Address × Nat)) (m : Map Address Nat) :
    (∃ m', credits.foldlM addCredit m = .ok m' ∧
      (∀ a ∈ credits.map (·.1), (m.lookup a).getD 0 + total credits a * 10 < 2 ^ 64) ∧
      ∀ a, m'.lookup a =
        if a ∈ credits.map (·.1) then some ((m.lookup a).getD 0 + total credits a * 10)
        else m.lookup a) ∨
    (credits.foldlM addCredit m = .error .panic ∧
      ∃ a ∈ credits.map (·.1), 2 ^ 64 ≤ (m.lookup a).getD 0 + total credits a * 10) := by
  induction credits generalizing m with
  | nil => exact .inl ⟨m, rfl, by simp, by simp⟩
  | cons x credits ih =>
    have hx : total (x :: credits) x.1 = x.2 + total credits x.1 := by simp [total_cons]
    rw [List.foldlM_cons, addCredit, fromSatoshi]
    by_cases h1 : x.2 * 10 < 2 ^ 64
    case neg =>
      refine .inr ⟨by simp only [checkedU64_of_not_lt h1, bind, Except.bind], x.1, ?_, ?_⟩
      · simp
      · rw [hx]
        omega
    rw [checkedU64_of_lt h1]
    by_cases h2 : (m.lookup x.1).getD 0 + x.2 * 10 < 2 ^ 64
    case neg =>
      refine .inr ⟨by simp only [checkedU64_of_not_lt h2, bind, Except.bind], x.1, ?_, ?_⟩
      · simp
      · rw [hx]
        omega
    simp only [checkedU64_of_lt h2, bind, Except.bind, pure, Except.pure]
    -- the new entry and the remaining credits make the same sum as the old entry and all credits
    generalize hm : m.insert x.1 ((m.lookup x.1).getD 0 + x.2 * 10) = m₁
    have hsum : ∀ a, (m₁.lookup a).getD 0 + total credits a * 10 =
        (m.lookup a).getD 0 + total (x :: credits) a * 10 := by
      intro a
      subst hm
      by_cases eq : x.1 = a
      · subst eq
        rw [hx, Finmap.lookup_insert, Option.getD_some]
        omega
      · rw [Finmap.lookup_insert_of_ne _ (Ne.symm eq), total_cons, if_neg eq, Nat.zero_add]
    rcases ih m₁ with ⟨m', hok, hlt, hlook⟩ | ⟨hpanic, a, mem, hge⟩
    · refine .inl ⟨m', hok, ?_, ?_⟩
      · intro a mem
        rw [← hsum]
        by_cases hc : a ∈ credits.map (·.1)
        · exact hlt a hc
        · rw [List.map_cons, List.mem_cons, or_iff_left hc] at mem
          subst mem
          rw [total_eq_zero hc, ← hm, Finmap.lookup_insert]
          simpa using h2
      · intro a
        rw [hlook, ← hsum]
        by_cases hc : a ∈ credits.map (·.1)
        · simp [hc]
        · by_cases eq : a = x.1
          · subst eq
            rw [if_neg hc, if_pos (by simp), total_eq_zero hc, ← hm, Finmap.lookup_insert]
            simp
          · rw [if_neg hc, if_neg (by simp [eq, hc]), ← hm, Finmap.lookup_insert_of_ne _ eq]
    · exact .inr ⟨hpanic, a, List.mem_cons_of_mem _ mem, by rwa [← hsum]⟩

/-- The listed peg-ins are new to the wallet and the bridge resolves them. -/
def PeginsResolved (P : Primitives) (cfg : ChainConfig) (rpc : BitcoinRpc) (w : UtxoManager)
    (block : SignedConsensusBlock) : Prop :=
  ∀ pegin ∈ block.message.pegins, w.getTx pegin.1 = none ∧
    ∃ info, cfg.bridge.getConfirmedPeginFromTxid P rpc pegin.1 pegin.2 = .ok info

/-- The account and the amount, in satoshi, of each listed peg-in. -/
def peginCredits (P : Primitives) (cfg : ChainConfig) (rpc : BitcoinRpc)
    (block : SignedConsensusBlock) : List (Address × Nat) :=
  block.message.pegins.filterMap fun pegin =>
    match cfg.bridge.getConfirmedPeginFromTxid P rpc pegin.1 pegin.2 with
    | .ok info => some (info.evmAccount, info.amount)
    | .error _ => none

/-- The loop over resolved peg-ins adds their credits. -/
lemma foldlM_expectPegin {P cfg rpc w} {m : Map Address Nat}
    (hres : PeginsResolved P cfg rpc w block) :
    block.message.pegins.foldlM (expectPegin P cfg rpc w) m =
      (peginCredits P cfg rpc block).foldlM addCredit m := by
  unfold PeginsResolved at hres
  unfold peginCredits
  generalize block.message.pegins = pegins at hres
  induction pegins generalizing m with
  | nil => rfl
  | cons pegin pegins ih =>
    rw [List.forall_mem_cons] at hres
    obtain ⟨⟨hnew, info, hinfo⟩, hrest⟩ := hres
    have hbody : expectPegin P cfg rpc w m pegin = addCredit m (info.evmAccount, info.amount) := by
      simp [expectPegin, hnew, hinfo, liftFederation, bind, Except.bind]
    rw [List.foldlM_cons, hbody, List.filterMap_cons, hinfo, List.foldlM_cons]
    refine congrArg _ (funext fun m' => ih hrest)

/-- The entry of an account: its last fee share and its peg-ins. -/
def merged (shares credits : List (Address × Nat)) (a : Address) : Nat :=
  (latest shares a).getD 0 + total credits a * 10

/-- The accounts that have an entry. -/
def recipients (shares credits : List (Address × Nat)) : List Address :=
  (shares ++ credits).map (·.1)

lemma mem_recipients {shares credits : List (Address × Nat)} :
    a ∈ recipients shares credits ↔ a ∈ shares.map (·.1) ∨ a ∈ credits.map (·.1) := by
  rw [recipients, List.map_append, List.mem_append]

/-- No entry overflows and the payload lists every entry as one withdrawal. -/
def ListsEntries (shares credits : List (Address × Nat)) (ws : List Withdrawal) : Prop :=
  (∀ a ∈ credits.map (·.1), merged shares credits a < 2 ^ 64) ∧
  ∀ a ∈ recipients shares credits, ⟨a, merged shares credits a⟩ ∈ ws

/-- The expected map: an entry for each recipient, unless one overflows. -/
lemma foldlM_addCredit_ofPairs (shares credits : List (Address × Nat)) :
    (∃ m, credits.foldlM addCredit (ofPairs shares) = .ok m ∧
      (∀ a ∈ credits.map (·.1), merged shares credits a < 2 ^ 64) ∧
      ∀ a, m.lookup a =
        if a ∈ recipients shares credits then some (merged shares credits a) else none) ∨
    (credits.foldlM addCredit (ofPairs shares) = .error .panic ∧
      ∃ a ∈ credits.map (·.1), 2 ^ 64 ≤ merged shares credits a) := by
  unfold merged
  rcases foldlM_addCredit credits (ofPairs shares) with
    ⟨m, hok, hlt, hlook⟩ | ⟨hpanic, hge⟩
  · simp only [lookup_ofPairs] at hlt hlook
    refine .inl ⟨m, hok, hlt, fun a => ?_⟩
    rw [hlook]
    by_cases hc : a ∈ credits.map (·.1)
    · rw [if_pos hc, if_pos (mem_recipients.mpr (.inr hc))]
    · rw [if_neg hc, total_eq_zero hc]
      have hmem : a ∈ recipients shares credits ↔ (latest shares a).isSome := by
        rw [mem_recipients, or_iff_left hc, latest_isSome]
      cases hl : latest shares a <;> simp [hmem, hl]
  · simp only [lookup_ofPairs] at hge
    exact .inr ⟨hpanic, hge⟩

/-- The withdrawals are checked against fees and peg-ins. -/
lemma checkWithdrawals_ok_iff {P cfg rpc s w} (hres : PeginsResolved P cfg rpc w block) :
    checkWithdrawals P cfg rpc s w block = .ok () ↔
      ∃ shares, feeShares cfg s block = .ok shares ∧
        ListsEntries shares (peginCredits P cfg rpc block)
          block.message.executionPayload.withdrawals := by
  unfold checkWithdrawals
  cases hshares : feeShares cfg s block with
  | error e => simp [bind, Except.bind]
  | ok shares =>
    simp only [bind, Except.bind, Except.ok.injEq, exists_eq_left', foldlM_expectPegin hres]
    generalize peginCredits P cfg rpc block = credits
    generalize block.message.executionPayload.withdrawals = ws
    unfold ListsEntries
    rcases foldlM_addCredit_ofPairs shares credits with
      ⟨m, hok, hlt, hlook⟩ | ⟨hpanic, a, mem, hge⟩
    · have hempty : (ws.foldl removeExpected m).keys = ∅ ↔
          ∀ a ∈ recipients shares credits, ⟨a, merged shares credits a⟩ ∈ ws := by
        rw [Finset.eq_empty_iff_forall_notMem]
        refine forall_congr' fun a => ?_
        rw [Finmap.mem_keys, ← Finmap.lookup_eq_none, lookup_foldl_removeExpected, hlook]
        split
        case isTrue mem => simp [mem]
        case isFalse nmem => simp [nmem]
      rw [hok, and_iff_right hlt, ← hempty]
      simp only
      split
      case isTrue h => simp [h, pure, Except.pure]
      case isFalse h => simp [h]
    · rw [hpanic]
      simp only [reduceCtorEq, false_iff, not_and]
      intro hlt
      exact absurd (hlt a mem) (by omega)

/-! ## Owed and paid -/

/-- What the block owes to an address, in gwei: all its fee shares and its peg-ins. -/
def owed (shares credits : List (Address × Nat)) (a : Address) : Nat :=
  total shares a + total credits a * 10

/-- What the payload pays to an address. -/
def paid (ws : List Withdrawal) (a : Address) : Nat :=
  total (ws.map fun withdrawal => (withdrawal.address, withdrawal.amount)) a

/-- The check succeeds exactly when every address is paid what the block owes to it. -/
def WithdrawalsExact (P : Primitives) (cfg : ChainConfig) (rpc : BitcoinRpc) (s : Storage)
    (w : UtxoManager) (block : SignedConsensusBlock) : Prop :=
  checkWithdrawals P cfg rpc s w block = .ok () ↔
    ∃ shares, feeShares cfg s block = .ok shares ∧
      ∀ a, paid block.message.executionPayload.withdrawals a =
        owed shares (peginCredits P cfg rpc block) a

/-- The payments of a block are plain: no address has two fee shares or two withdrawals, only those
who are owed something are paid, an account that is owed 0 is listed with a withdrawal, and no
amount overflows. -/
structure PlainPayments (shares credits : List (Address × Nat)) (ws : List Withdrawal) : Prop where
  shares_nodup : (shares.map (·.1)).Nodup
  withdrawals_nodup : (ws.map (·.address)).Nodup
  justified : ∀ withdrawal ∈ ws, withdrawal.address ∈ recipients shares credits
  listed : ∀ a ∈ recipients shares credits, owed shares credits a = 0 → a ∈ ws.map (·.address)
  fits : ∀ a, owed shares credits a < 2 ^ 64

/-- A withdrawal that is the only one to its address is what the address is paid. -/
lemma paid_of_mem {n : Nat} (nodup : (ws.map (·.address)).Nodup) (mem : ⟨a, n⟩ ∈ ws) :
    paid ws a = n := by
  refine total_of_mem ?_ (List.mem_map_of_mem mem)
  rw [List.map_map]
  exact nodup

/-- An address without a withdrawal is paid nothing. -/
lemma paid_eq_zero (nmem : a ∉ ws.map (·.address)) :
    paid ws a = 0 := by
  refine total_eq_zero ?_
  rw [List.map_map]
  exact nmem

namespace PlainPayments

variable {shares credits : List (Address × Nat)} {ws : List Withdrawal}

/-- Without two shares of one address no share is replaced: the entry is what is owed. -/
lemma merged_eq (h : PlainPayments shares credits ws) (a : Address) :
    merged shares credits a = owed shares credits a := by
  rw [merged, owed, getD_latest h.shares_nodup]

/-- The entries are listed exactly when every address is paid what it is owed. -/
lemma listsEntries_iff (h : PlainPayments shares credits ws) :
    ListsEntries shares credits ws ↔ ∀ a, paid ws a = owed shares credits a := by
  constructor
  · rintro ⟨_, hlisted⟩ a
    by_cases mem : a ∈ recipients shares credits
    · have hentry := hlisted a mem
      rw [h.merged_eq] at hentry
      exact paid_of_mem h.withdrawals_nodup hentry
    · have unpaid : a ∉ ws.map (·.address) := by
        intro hpaid
        obtain ⟨withdrawal, hmem, rfl⟩ := List.mem_map.mp hpaid
        exact mem (h.justified withdrawal hmem)
      rw [mem_recipients, not_or] at mem
      rw [paid_eq_zero unpaid, owed, total_eq_zero mem.1, total_eq_zero mem.2]
  · intro htotal
    refine ⟨fun a _ => ?_, fun a mem => ?_⟩
    · rw [h.merged_eq]
      exact h.fits a
    · -- the account is listed: otherwise it is paid nothing, and then it is owed nothing
      have hlisted : a ∈ ws.map (·.address) := by
        by_contra nmem
        exact nmem (h.listed a mem ((htotal a).symm.trans (paid_eq_zero nmem)))
      obtain ⟨⟨_, n⟩, hmem, rfl⟩ := List.mem_map.mp hlisted
      have hn := paid_of_mem h.withdrawals_nodup hmem
      rw [h.merged_eq, ← htotal, hn]
      exact hmem

end PlainPayments

/-- For a block whose peg-ins are new and resolved and whose payments are plain, the check is exact.
-/
theorem checkWithdrawals_exact {P : Primitives} {cfg : ChainConfig} {rpc : BitcoinRpc}
    {s : Storage} {w : UtxoManager} {block : SignedConsensusBlock}
    (hres : PeginsResolved P cfg rpc w block)
    (plain : ∀ shares, feeShares cfg s block = .ok shares →
      PlainPayments shares (peginCredits P cfg rpc block)
        block.message.executionPayload.withdrawals) :
    WithdrawalsExact P cfg rpc s w block := by
  rw [WithdrawalsExact, checkWithdrawals_ok_iff hres]
  refine exists_congr fun shares => and_congr_right fun hshares => ?_
  exact (plain shares hshares).listsEntries_iff

/-- A deposit of 1000 satoshi, listed and paid as 10000 gwei. -/
theorem checkWithdrawals_exact_pegin :
    WithdrawalsExact .toy (.toy 3 0) .toy .empty .empty (.toyPegin [[1]] [⟨[7], 10000⟩]) := by
  refine checkWithdrawals_exact ?_ fun shares hshares => ?_
  · intro pegin mem
    cases List.mem_singleton.mp mem
    exact ⟨by decide, _, rfl⟩
  · cases hshares
    have hcredits : peginCredits .toy (.toy 3 0) .toy (.toyPegin [[1]] [⟨[7], 10000⟩]) =
        [([7], 1000)] := by decide
    rw [hcredits]
    refine ⟨by decide, by decide, by decide, by decide, fun a => ?_⟩
    have hle := @total_le_sum _ _ a [(([7] : Address), 1000)]
    rw [owed, total_nil, Nat.zero_add]
    simp only [List.map_cons, List.map_nil, List.sum_cons, List.sum_nil] at hle
    omega

/-- A block that owes nothing and pays 5 gwei to an address passes the check. -/
theorem checkWithdrawals_unjustified :
    ¬ ∀ (P : Primitives) (cfg : ChainConfig) (rpc : BitcoinRpc) (s : Storage) (w : UtxoManager)
      (block : SignedConsensusBlock), (block.message.pegins.map (·.1)).Nodup →
      PeginsResolved P cfg rpc w block → WithdrawalsExact P cfg rpc s w block := by
  intro all
  have hexact := all .toy (.toy 3 0) .toy .empty .empty (.toyPegin [] [⟨[7], 5⟩]) (by decide) nofun
  obtain ⟨shares, hshares, htotal⟩ := hexact.mp (by decide)
  cases hshares
  exact absurd (htotal [7]) (by decide)

end Alys
