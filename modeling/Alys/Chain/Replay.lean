import Alys.Chain.Ancestry
import Alys.Chain.Fees
import Alys.Chain.Spending

/-!
# The wallet and the chain of the head

The wallet of a validator is written by imports and by the fetching of outputs, and never taken
back. It is the one that registering the blocks from the genesis block to the head gives as long as
nothing is fetched and no block that contains a peg-in or a peg-out proposal is rolled back.
-/

namespace Alys
open Lib

/-! ## The chain of a block -/

/-- The messages from the genesis block to a stored block. -/
inductive Ancestry (s : Storage) : Hash256 → List ConsensusBlock → Prop where
  | genesis {h b} (stored : s.getBlock h = some b) (first : b.message.parentHash = Hash256.zero) :
    Ancestry s h [b.message]
  | child {h b chain} (stored : s.getBlock h = some b)
    (rest : Ancestry s b.message.parentHash chain) : Ancestry s h (chain ++ [b.message])

namespace Ancestry

variable {s s' : Storage} {h : Hash256} {chain chain' : List ConsensusBlock}

lemma mono (a : Ancestry s h chain) (le : s.Retains s') : Ancestry s' h chain := by
  induction a with
  | genesis stored first =>
    obtain ⟨b', stored', e⟩ := le stored
    rw [← e]
    exact .genesis stored' (by rw [e]; exact first)
  | child stored _ ih =>
    obtain ⟨b', stored', e⟩ := le stored
    rw [← e] at ih ⊢
    exact .child stored' ih

lemma stored (a : Ancestry s h chain) : ∃ b, s.getBlock h = some b := by
  cases a with
  | genesis stored => exact ⟨_, stored⟩
  | child stored => exact ⟨_, stored⟩

/-- A block has one chain. -/
lemma unique (a : Ancestry s h chain) (a' : Ancestry s h chain')
    (zero : s.getBlock Hash256.zero = none) : chain = chain' := by
  have absurd_zero : ∀ {chain}, ¬ Ancestry s Hash256.zero chain := by
    intro chain a
    obtain ⟨b, e⟩ := a.stored
    rw [zero] at e
    cases e
  induction a generalizing chain' with
  | genesis stored first =>
    cases a' with
    | genesis stored' =>
      rw [stored] at stored'
      cases stored'
      rfl
    | child stored' rest =>
      rw [stored] at stored'
      cases stored'
      exact absurd (first ▸ rest) absurd_zero
  | child stored rest ih =>
    cases a' with
    | genesis stored' first =>
      rw [stored] at stored'
      cases stored'
      exact absurd (first ▸ rest) absurd_zero
    | child stored' rest' =>
      rw [stored] at stored'
      cases stored'
      rw [ih rest']

end Ancestry

/-- What registering the peg-ins and the proposals of a chain makes of a wallet. -/
def replay (P : Primitives) (F : Federation) (rpc : BitcoinRpc) (chain : List ConsensusBlock) :
    Action UtxoManager Failure Unit :=
  Action.forEach chain (UtxoManager.importPegs P F rpc)

lemma replay_snoc {P F rpc chain m} :
    replay P F rpc (chain ++ [m]) =
      (replay P F rpc chain >>= fun _ => UtxoManager.importPegs P F rpc m) := by
  rw [replay, Action.forEach_append, Action.forEach, Action.forEach, bind_pure_unit]
  rfl

/-- A block without peg-ins and without a proposal registers nothing. -/
lemma replay_snoc_pegFree {P F rpc chain} {m : ConsensusBlock} (hpegins : m.pegins = [])
    (hproposal : m.pegoutPaymentProposal = none) :
    replay P F rpc (chain ++ [m]) = replay P F rpc chain := by
  have hnone : UtxoManager.importPegs P F rpc m = pure () := by
    simp only [UtxoManager.importPegs, hpegins, hproposal]
    rfl
  rw [replay_snoc, hnone, bind_pure_unit]

/-- The fees accumulated at the end of a chain. -/
def accumulated (fee : ExecutionBlockHash → Nat) (chain : List ConsensusBlock) : Nat :=
  chain.foldl (fun fees m =>
    (if m.auxpowHeader.isSome then 0 else fees) + fee m.executionPayload.blockHash) 0

lemma accumulated_snoc {fee : ExecutionBlockHash → Nat} {chain : List ConsensusBlock}
    {m : ConsensusBlock} :
    accumulated fee (chain ++ [m]) =
      (if m.auxpowHeader.isSome then 0 else accumulated fee chain) +
        fee m.executionPayload.blockHash := by
  rw [accumulated, List.foldl_append]
  rfl

/-! ## Registering a valid block -/

namespace UtxoManager

/-- Registering peg-ins that the Bitcoin node reports succeeds and keeps the recorded outputs. -/
lemma forEach_importPegin_ok {P F rpc} {pegins : List (Txid × BlockHash)}
    (h : ∀ pegin ∈ pegins, ∃ tx, Bridge.fetchTransaction rpc pegin.1 pegin.2 = some tx)
    (w : UtxoManager) :
    ∃ w', Action.forEach pegins (importPegin P F rpc) w = (.ok (), w') ∧
      ∀ o ∈ w.utxos, o ∈ w'.utxos := by
  induction pegins generalizing w with
  | nil => exact ⟨w, rfl, fun _ h => h⟩
  | cons pegin pegins ih =>
    rw [List.forall_mem_cons] at h
    obtain ⟨⟨tx, htx⟩, h⟩ := h
    obtain ⟨w', e, le⟩ := ih h (w.registerPegin P F tx)
    refine ⟨w', ?_, fun o ho => le o (mem_registerUtxos ho)⟩
    simp only [Action.forEach, importPegin, Action.bind_apply, Action.lift_apply, htx, okOr,
      Action.modify_apply]
    exact e

lemma forEach_markSpent_ok {inputs : List TxIn} {w : UtxoManager}
    (h : ∀ input ∈ inputs, input.previousOutput ∈ w.utxos) :
    ∃ w', Action.forEach inputs markSpent w = (.ok (), w') := by
  induction inputs generalizing w with
  | nil => exact ⟨w, rfl⟩
  | cons input inputs ih =>
    rw [List.forall_mem_cons] at h
    obtain ⟨utxo, hutxo⟩ := Finmap.mem_iff.mp h.1
    obtain ⟨w', e⟩ := @ih (w.setUtxo { utxo with isSpent := true })
      fun i hi => Finmap.mem_insert.mpr (.inr (h.2 i hi))
    refine ⟨w', ?_⟩
    simp only [Action.forEach, Action.bind_apply, markSpent, hutxo]
    exact e

/-- A block's peg-ins and its proposal are registered if the Bitcoin node reports the peg-ins and
the proposal's inputs are recorded. -/
lemma importPegs_ok {P F rpc} {m : ConsensusBlock} {w : UtxoManager}
    (hpegins : ∀ pegin ∈ m.pegins, ∃ tx, Bridge.fetchTransaction rpc pegin.1 pegin.2 = some tx)
    (hinputs : ∀ o ∈ m.inputs, o ∈ w.utxos) :
    ∃ w', importPegs P F rpc m w = (.ok (), w') := by
  obtain ⟨w₁, e, le⟩ := @forEach_importPegin_ok P F rpc m.pegins hpegins w
  simp only [importPegs, Action.bind_apply, e]
  cases hp : m.pegoutPaymentProposal with
  | none => exact ⟨w₁, rfl⟩
  | some tx =>
    have hspent : ∀ input ∈ tx.input, input.previousOutput ∈ (w₁.setRawTx P tx).utxos := by
      intro input hi
      refine le _ (hinputs _ ?_)
      simp only [ConsensusBlock.inputs, hp, Option.toList_some, List.flatMap_singleton]
      exact List.mem_map_of_mem hi
    obtain ⟨w₂, e₂⟩ := forEach_markSpent_ok hspent
    refine ⟨w₂.registerOutputsFrom P F tx, ?_⟩
    simp only [importPegout, Action.zoom, registerPegout, Action.bind_apply, Action.modify_apply,
      id, e₂]
    rfl

/-- Registering depends on the Bitcoin node only by the transactions it reports. -/
lemma importPegs_congr {P F rpc rpc'} {m : ConsensusBlock}
    (h : Bridge.fetchTransaction rpc = Bridge.fetchTransaction rpc') :
    importPegs P F rpc m = importPegs P F rpc' m := by
  have hpegin : importPegin P F rpc = importPegin P F rpc' := by
    funext pegin
    simp only [importPegin, h]
  simp only [importPegs, hpegin]

end UtxoManager

/-- The peg-ins of a valid block are reported by the Bitcoin node. -/
lemma checkWithdrawals_fetched {P cfg rpc s w b} (e : checkWithdrawals P cfg rpc s w b = .ok ()) :
    ∀ pegin ∈ b.message.pegins, ∃ tx, Bridge.fetchTransaction rpc pegin.1 pegin.2 = some tx := by
  simp only [checkWithdrawals, bind_eq_ok_iff] at e
  obtain ⟨_, _, _, he, _⟩ := e
  refine forall_of_foldlM_eq_ok he fun _ pegin _ e' => ?_
  unfold expectPegin at e'
  split at e'
  case isTrue => cases e'
  case isFalse =>
    simp only [bind_eq_ok_iff] at e'
    obtain ⟨_, hinfo, _⟩ := e'
    obtain ⟨_, tx, _, htx, _⟩ := Bridge.getConfirmedPeginFromTxid_ok (liftFederation_eq_ok hinfo)
    exact ⟨tx, htx⟩

/-! ## Wallets in step -/

/-- The second block is a child of the first one, without peg-ins and without a proposal. -/
def Storage.PegFreeChild (s : Storage) (h h' : Hash256) : Prop :=
  ∃ b, s.getBlock h' = some b ∧ b.message.parentHash = h ∧ b.message.pegins = [] ∧
    b.message.pegoutPaymentProposal = none

/-- Blocks without peg-ins and proposals at the end of a chain make no difference to the wallet. -/
lemma Ancestry.of_pegFree {P F rpc} {s : Storage} {h h' : Hash256} {b chain'}
    (zero : s.getBlock Hash256.zero = none) (stored : s.getBlock h = some b)
    (e : Relation.ReflTransGen s.PegFreeChild h h') (a : Ancestry s h' chain') :
    ∃ chain, Ancestry s h chain ∧ replay P F rpc chain = replay P F rpc chain' := by
  induction e generalizing chain' with
  | refl => exact ⟨chain', a, rfl⟩
  | @tail m _ rest child ih =>
    obtain ⟨b', hb', hpar, hpegins, hproposal⟩ := child
    have hm : ∃ bm, s.getBlock m = some bm := by
      rcases Relation.ReflTransGen.cases_tail rest with rfl | ⟨_, _, bm, hbm, _⟩
      · exact ⟨b, stored⟩
      · exact ⟨bm, hbm⟩
    cases a with
    | genesis stored' first =>
      rw [hb', Option.some.injEq] at stored'
      subst stored'
      obtain ⟨bm, hbm⟩ := hm
      rw [← hpar, first, zero] at hbm
      cases hbm
    | child stored' a =>
      rw [hb', Option.some.injEq] at stored'
      subst stored'
      obtain ⟨chain, a', e⟩ := ih (hpar ▸ a)
      exact ⟨chain, a', e.trans (replay_snoc_pegFree hpegins hproposal).symm⟩

/-- The wallet is the one that registering the blocks of the stored head's chain makes of `w₀`. -/
def WalletInStep (P : Primitives) (F : Federation) (rpc : BitcoinRpc) (w₀ : UtxoManager)
    (c : Chain) : Prop :=
  ∃ head chain, c.storage.head = some head ∧ Ancestry c.storage head.hash chain ∧
    replay P F rpc chain w₀ = (.ok (), c.bitcoinWallet)

/-- Every stored block has a chain, the fees accumulated on it are its entry, and the wallet is in
step. -/
structure Replayed (P : Primitives) (F : Federation) (rpc : BitcoinRpc)
    (fee : ExecutionBlockHash → Nat) (w₀ : UtxoManager) (c : Chain) : Prop where
  keyed : ∀ {h b}, c.storage.getBlock h = some b → b.canonicalRoot P = h
  zero : c.storage.getBlock Hash256.zero = none
  chains : ∀ {h b}, c.storage.getBlock h = some b → ∃ chain, Ancestry c.storage h chain ∧
    c.storage.blockFees.lookup h = some (accumulated fee chain)
  wallet : WalletInStep P F rpc w₀ c

/-- A block is valid at the stored head: it extends it, no other block has its root and its
proposal spends outputs that the wallet records as unspent. -/
structure Replayable (P : Primitives) (c : Chain) (b : SignedConsensusBlock) : Prop where
  parent : c.storage.head.map (·.hash) = some b.message.parentHash
  unique : ∀ b', c.storage.getBlock (b.canonicalRoot P) = some b' → b'.message = b.message
  recorded : ∀ o ∈ b.message.inputs, c.bitcoinWallet.hasSpendableUtxo o = true

/-- What is assumed of the execution layer: the fees of a block depend on its hash only. -/
def Env.FeesOf (fee : ExecutionBlockHash → Nat) (env : Env) : Prop :=
  ∀ hash execution fees, env.getBlockAndReceipts hash = .ok execution →
    totalFees execution.1 execution.2 = .ok fees → fees = fee hash

/-- What is assumed of the environment: the Bitcoin node reports the same transactions and the
execution layer the same fees at all times, and the disk answers. -/
structure Env.Steady (rpc : BitcoinRpc) (fee : ExecutionBlockHash → Nat) (env : Env) : Prop where
  fetches : Bridge.fetchTransaction env.rpc = Bridge.fetchTransaction rpc
  fees : env.FeesOf fee
  commits : env.commitOps = true

/-- The blocks above the target of a rollback, up to the stored head, list no peg-in and contain no
proposal. -/
def PegFreeAbove (P : Primitives) (c : Chain) (height : Nat) : Prop :=
  ∀ target, c.storage.getBlockByHeight height = some target → ∃ head, c.storage.head = some head ∧
    Relation.ReflTransGen c.storage.PegFreeChild (target.canonicalRoot P) head.hash

namespace Replayed

variable {P : Primitives} {F : Federation} {rpc : BitcoinRpc} {fee : ExecutionBlockHash → Nat}
  {w₀ w : UtxoManager} {env : Env} {c c' : Chain} {b g : SignedConsensusBlock}

/-- The property concerns the store and the wallet. -/
lemma congr (h : Replayed P F rpc fee w₀ c) (hstorage : c'.storage = c.storage)
    (hwallet : c'.bitcoinWallet = c.bitcoinWallet) : Replayed P F rpc fee w₀ c' := by
  constructor
  case keyed => rw [hstorage]; exact h.keyed
  case zero => rw [hstorage]; exact h.zero
  case chains => rw [hstorage]; exact h.chains
  case wallet =>
    unfold WalletInStep
    rw [hstorage, hwallet]
    exact h.wallet

/-- The node after its start. -/
lemma ofGenesis (hP : RootsSound P) (hg : g.IsGenesis) :
    Replayed P F rpc fee w₀
      (Chain.ofGenesis P env g (fee g.message.executionPayload.blockHash) w₀) := by
  have L := (SingleChain.ofGenesis hP hg (fee g.message.executionPayload.blockHash)).linear
  have hget := L.getBlock (List.mem_singleton.mpr rfl)
  have hreg : UtxoManager.importPegs P F rpc g.message = pure () := by
    simp only [UtxoManager.importPegs, hg.pegins, hg.proposal]
    rfl
  obtain ⟨pow, hpow, _⟩ := hg.header
  constructor
  case keyed =>
    intro h b e
    exact (L.stored.mp e).2
  case zero => exact L.zero
  case chains =>
    intro h b e
    obtain ⟨mem, rfl⟩ := L.stored.mp e
    cases List.mem_singleton.mp mem
    refine ⟨_, .genesis hget hg.parent, ?_⟩
    simp only [Chain.ofGenesis, Chain.new, Storage.extend, Finmap.lookup_insert, accumulated,
      List.foldl_cons, List.foldl_nil, hpow, Option.isSome_some, if_true, Nat.zero_add]
  case wallet =>
    refine ⟨g.blockRef P, [g.message], rfl, .genesis hget hg.parent, ?_⟩
    simp only [replay, Action.forEach, hreg]
    rfl

/-- The import of a valid block whose peg-ins and proposal are registered. -/
lemma extend (h : Replayed P F rpc fee w₀ c) (hP : RootsSound P) (hb : Replayable P c b)
    (wallet : UtxoManager.importPegs P F rpc b.message c.bitcoinWallet = (.ok (), w)) {fees : Nat}
    (hfees : fees = (if b.message.auxpowHeader.isSome then 0
      else (c.storage.blockFees.lookup b.message.parentHash).getD 0) +
        fee b.message.executionPayload.blockHash)
    (hstorage : c'.storage = c.storage.extend P b fees true) (hwallet : c'.bitcoinWallet = w) :
    Replayed P F rpc fee w₀ c' := by
  have le : c.storage.Retains c'.storage := by
    rw [hstorage]
    exact Storage.retains_extend hb.unique
  have hself : c'.storage.getBlock (b.canonicalRoot P) = some b := by
    rw [hstorage]
    exact Storage.getBlock_extend_self
  have hcases : ∀ {h' b'}, c'.storage.getBlock h' = some b' →
      b' = b ∧ h' = b.canonicalRoot P ∨
        h' ≠ b.canonicalRoot P ∧ c.storage.getBlock h' = some b' := by
    intro h' b' e
    rw [hstorage] at e
    exact Storage.getBlock_extend_cases e
  obtain ⟨head, chain, hhead, hchain, hreplay⟩ := h.wallet
  have hpar := hb.parent
  rw [hhead, Option.map_some, Option.some.injEq] at hpar
  have hnew : Ancestry c'.storage (b.canonicalRoot P) (chain ++ [b.message]) :=
    .child hself (hpar ▸ hchain.mono le)
  constructor
  case keyed =>
    intro h' b' e
    rcases hcases e with ⟨rfl, rfl⟩ | ⟨_, e⟩
    · rfl
    · exact h.keyed e
  case zero =>
    rw [hstorage]
    exact Storage.getBlock_extend_zero hP h.zero
  case chains =>
    intro h' b' e
    have hentry : c'.storage.blockFees = c.storage.blockFees.insert (b.canonicalRoot P) fees := by
      rw [hstorage]
      rfl
    rcases hcases e with ⟨_, rfl⟩ | ⟨ne, e⟩
    · refine ⟨_, hnew, ?_⟩
      obtain ⟨bp, hbp⟩ := hchain.stored
      obtain ⟨chain', hchain', hlookup⟩ := h.chains hbp
      rw [hchain'.unique hchain h.zero] at hlookup
      rw [← hpar, hlookup, Option.getD_some] at hfees
      rw [hentry, Finmap.lookup_insert, accumulated_snoc, hfees]
    · obtain ⟨chain', hchain', hlookup⟩ := h.chains e
      exact ⟨chain', hchain'.mono le, by rw [hentry, Finmap.lookup_insert_of_ne _ ne, hlookup]⟩
  case wallet =>
    refine ⟨b.blockRef P, chain ++ [b.message], by rw [hstorage]; rfl, hnew, ?_⟩
    rw [replay_snoc, Action.bind_apply, hreplay, hwallet]
    exact wallet

/-- A rollback below which nothing was registered. -/
lemma rollback (h : Replayed P F rpc fee w₀ c) {target powBlock} {height : Nat}
    (htarget : c.storage.getBlockByHeight height = some target) (free : PegFreeAbove P c height)
    (hstorage : c'.storage = c.storage.rollback P target powBlock)
    (hwallet : c'.bitcoinWallet = c.bitcoinWallet) : Replayed P F rpc fee w₀ c' := by
  obtain ⟨hash, _, hstored⟩ := Option.bind_eq_some_iff.mp htarget
  have hget : c'.storage.getBlock = c.storage.getBlock := by
    rw [hstorage]
    rfl
  have hentries : c'.storage.blockFees = c.storage.blockFees := by
    rw [hstorage]
    rfl
  have le : c.storage.Retains c'.storage := fun e => ⟨_, by rw [hget]; exact e, rfl⟩
  obtain ⟨head, hhead, hfree⟩ := free target htarget
  obtain ⟨head', chain, hhead', hchain, hreplay⟩ := h.wallet
  cases hhead.symm.trans hhead'
  rw [h.keyed hstored] at hfree
  obtain ⟨chain', hchain', e⟩ := @Ancestry.of_pegFree P F rpc _ _ _ _ _ h.zero hstored hfree hchain
  constructor
  case keyed =>
    intro h' b' e
    rw [hget] at e
    exact h.keyed e
  case zero => rw [hget, h.zero]
  case chains =>
    intro h' b' e
    rw [hget] at e
    rw [hentries]
    obtain ⟨chain, hc, hlookup⟩ := h.chains e
    exact ⟨chain, hc.mono le, hlookup⟩
  case wallet =>
    refine ⟨target.blockRef P, chain', by rw [hstorage]; rfl, ?_, ?_⟩
    · change Ancestry _ (target.canonicalRoot P) _
      rw [h.keyed hstored]
      exact hchain'.mono le
    · rw [e, hwallet]
      exact hreplay

end Replayed

/-! ## Runs -/

/-- An accepted import of a block on the head, in a steady environment: nothing happens, or the
block's peg-ins and proposal are registered and it is stored. -/
lemma acceptBlock_steady {P cfg rpc fee env b} {c : Chain} (hv : cfg.isValidator = true)
    (henv : env.Steady rpc fee) (hb : Replayable P c b) :
    let c' := (acceptBlock P cfg env b c).2
    (c'.storage = c.storage ∧ c'.bitcoinWallet = c.bitcoinWallet) ∨
    ∃ fees, UtxoManager.importPegs P cfg.bitcoinFederation rpc b.message c.bitcoinWallet =
        (.ok (), c'.bitcoinWallet) ∧
      fees = (if b.message.auxpowHeader.isSome then 0
        else (c.storage.blockFees.lookup b.message.parentHash).getD 0) +
          fee b.message.executionPayload.blockHash ∧
      c'.storage = c.storage.extend P b fees true := by
  intro c'
  obtain ⟨missing, fetched, e⟩ | ⟨missing, valid, _, e⟩ := @acceptBlock_cases P cfg env b c
  · cases fetched.eq_nil hb.recorded
    exact .inl ⟨congrArg Chain.storage e, congrArg Chain.bitcoinWallet e⟩
  · cases valid.fetched.eq_nil hb.recorded
    have himp := (@importVerifiedBlockNoCommit_imports P cfg env b (c.registerUtxos [])).1
    rw [← e] at himp
    have range : RangeStored c.storage b.message := checkAuxPow_rangeStored valid.auxPow
    have above := (checkParent_eq_ok_iff.mp valid.parent).2.1
    obtain ⟨w, wallet⟩ := @UtxoManager.importPegs_ok P cfg.bitcoinFederation env.rpc b.message
      c.bitcoinWallet (checkWithdrawals_fetched (valid.withdrawals hv))
      fun o ho => UtxoManager.mem_of_hasSpendableUtxo (hb.recorded o ho)
    have himport : importWallet P cfg env b.message c.bitcoinWallet = (.ok (), w) := by
      rw [importWallet, if_pos hv]
      exact wallet
    change Imports P cfg env b c.core c'.core at himp
    change (c'.core.storage = _ ∧ c'.core.bitcoinWallet = _) ∨
      ∃ fees, _ = (_, c'.core.bitcoinWallet) ∧ _ ∧ c'.core.storage = _
    generalize c'.core = k' at himp
    cases himp with
    | unchanged => exact .inl ⟨rfl, rfl⟩
    | stopped stopped => cases himport.symm.trans stopped
    | dropped _ failed => exact absurd ⟨range, henv.commits⟩ failed
    | @committed w' execution fees executed accumulated wallet' _ _ =>
      cases himport.symm.trans wallet'
      obtain ⟨blockFees, htotal, hfees⟩ := accumulateFees_eq_ok accumulated
      rw [henv.fees _ _ _ executed htotal] at hfees
      rw [UtxoManager.importPegs_congr henv.fetches] at wallet
      exact .inr ⟨fees, wallet, hfees, Core.commit_storage above⟩

/-- The runs of a validator in a steady environment in which every accepted block is valid at the
stored head and no rollback goes below a block that was registered. -/
abbrev SteadyRun (P : Primitives) (cfg : ChainConfig) (rpc : BitcoinRpc)
    (fee : ExecutionBlockHash → Nat) : Chain → Chain → Prop :=
  ReorgRun P cfg (fun c env b => env.Steady rpc fee ∧ Replayable P c b)
    (fun c _ height => PegFreeAbove P c height)

/-- A step keeps the invariant and the stored messages. -/
lemma Replayed.step {P cfg rpc fee w₀} {c : Chain} {e : Reorg} (hP : RootsSound P)
    (hv : cfg.isValidator = true) (h : Replayed P cfg.bitcoinFederation rpc fee w₀ c)
    (ok : Reorg.Allowed (fun c env b => env.Steady rpc fee ∧ Replayable P c b)
      (fun c _ height => PegFreeAbove P c height) c e) :
    Replayed P cfg.bitcoinFederation rpc fee w₀ (e.apply P cfg c) ∧
      c.storage.Retains (e.apply P cfg c).storage := by
  cases e with
  | accept env b =>
    obtain ⟨henv, hb⟩ := ok
    simp only [Reorg.apply]
    obtain ⟨hs, hw⟩ | ⟨fees, wallet, hfees, hs⟩ := acceptBlock_steady hv henv hb
    · refine ⟨h.congr hs hw, ?_⟩
      rw [hs]
      exact fun e => ⟨_, e, rfl⟩
    · refine ⟨h.extend hP hb wallet hfees hs rfl, ?_⟩
      rw [hs]
      exact Storage.retains_extend hb.unique
  | rollback env height =>
    simp only [Reorg.apply]
    obtain e | ⟨target, powBlock, htarget, _, e⟩ := @rollbackHead_cases P env height c
    · rw [e]
      exact ⟨h, fun e => ⟨_, e, rfl⟩⟩
    · rw [e]
      cases env.commitOps with
      | false => exact ⟨h.congr rfl rfl, fun e => ⟨_, e, rfl⟩⟩
      | true => exact ⟨h.rollback htarget ok rfl rfl, fun e => ⟨_, e, rfl⟩⟩

lemma Replayed.run {P cfg rpc fee w₀} {c c' : Chain} (hP : RootsSound P)
    (hv : cfg.isValidator = true) (h : Replayed P cfg.bitcoinFederation rpc fee w₀ c)
    (run : SteadyRun P cfg rpc fee c c') :
    Replayed P cfg.bitcoinFederation rpc fee w₀ c' ∧ c.storage.Retains c'.storage := by
  refine run.invariant (I := fun c' => Replayed P cfg.bitcoinFederation rpc fee w₀ c' ∧
    c.storage.Retains c'.storage) ⟨h, fun e => ⟨_, e, rfl⟩⟩ fun c₁ e h₁ ok => ?_
  obtain ⟨h₂, le⟩ := h₁.1.step hP hv ok
  refine ⟨h₂, fun e => ?_⟩
  obtain ⟨b₁, e₁, m₁⟩ := h₁.2 e
  obtain ⟨b₂, e₂, m₂⟩ := le e₁
  exact ⟨b₂, e₂, m₂.trans m₁⟩

/-- The checks of a block's withdrawals and of its proposal end in the same way in two states. -/
def CheckedAlike (P : Primitives) (cfg : ChainConfig) (env : Env) (b : SignedConsensusBlock)
    (c c' : Chain) : Prop :=
  checkWithdrawals P cfg env.rpc c.storage c.bitcoinWallet b =
      checkWithdrawals P cfg env.rpc c'.storage c'.bitcoinWallet b ∧
    (checkPegoutProposal P cfg env b c).1 = (checkPegoutProposal P cfg env b c').1

/-- The checks read the wallet and the fees accumulated at the parent. -/
lemma CheckedAlike.of_eq {P cfg env b} {c c' : Chain} (hw : c.bitcoinWallet = c'.bitcoinWallet)
    (hfees : c.storage.blockFees.lookup b.message.parentHash =
      c'.storage.blockFees.lookup b.message.parentHash) : CheckedAlike P cfg env b c c' := by
  have hshares : feeShares cfg c.storage b = feeShares cfg c'.storage b := by
    simp only [feeShares, Storage.queuedFees, hfees]
  constructor
  · simp only [checkWithdrawals, hshares, hw]
  · simp only [checkPegoutProposal, Action.bind_apply, Action.get_apply, Action.lift_apply, hw]
    cases findMissingUtxos P cfg env c'.bitcoinWallet b <;> rfl

/-- In every run of a validator in which each block that arrives extends the stored head and spends
recorded outputs, and each rollback passes only blocks without peg-ins and proposals, the wallet is
in step with the head's chain, and a block is checked in the same way whenever its parent is the
stored head. -/
theorem run_walletInStep {P : Primitives} {cfg : ChainConfig} {rpc : BitcoinRpc}
    {fee : ExecutionBlockHash → Nat} {env : Env} {spec : ChainSpec} {payload : ExecutionPayload}
    {w : UtxoManager} {c₀ c₁ c₂ : Chain} (hP : RootsSound P) (hv : cfg.isValidator = true)
    (henv : env.FeesOf fee)
    (start : storeGenesis P cfg env spec payload (Chain.new .empty w) = (.ok (), c₀))
    (run₁ : SteadyRun P cfg rpc fee c₀ c₁) (run₂ : SteadyRun P cfg rpc fee c₁ c₂) :
    WalletInStep P cfg.bitcoinFederation rpc w c₂ ∧
      ∀ env b, c₁.storage.head.map (·.hash) = some b.message.parentHash →
        c₂.storage.head.map (·.hash) = some b.message.parentHash →
        CheckedAlike P cfg env b c₁ c₂ := by
  obtain ⟨g, fees, execution, hg, rfl, hexec, htotal, rfl⟩ := storeGenesis_ok start
  cases henv _ _ _ hexec htotal
  obtain ⟨h₁, _⟩ := Replayed.run hP hv (.ofGenesis hP hg) run₁
  obtain ⟨h₂, le⟩ := h₁.run hP hv run₂
  refine ⟨h₂.wallet, fun env b p₁ p₂ => ?_⟩
  obtain ⟨head₁, chain₁, hhead₁, a₁, replay₁⟩ := h₁.wallet
  obtain ⟨head₂, chain₂, hhead₂, a₂, replay₂⟩ := h₂.wallet
  rw [hhead₁, Option.map_some, Option.some.injEq] at p₁
  rw [hhead₂, Option.map_some, Option.some.injEq] at p₂
  rw [p₁] at a₁
  rw [p₂] at a₂
  -- the parent's chain is the same in both stores
  cases (a₁.mono le).unique a₂ h₂.zero
  refine .of_eq (congrArg Prod.snd (replay₁.symm.trans replay₂)) ?_
  obtain ⟨b₁, hb₁⟩ := a₁.stored
  obtain ⟨b₂, hb₂⟩ := a₂.stored
  obtain ⟨chain₁', a₁', entry₁⟩ := h₁.chains hb₁
  obtain ⟨chain₂', a₂', entry₂⟩ := h₂.chains hb₂
  rw [entry₁, entry₂, a₁'.unique a₁ h₁.zero, a₂'.unique a₂ h₂.zero]

/-- A validator imports a deposit and a block on it, goes back to the first one and is given the
second one again. -/
def toyRedelivered : List Reorg :=
  [.accept .toy (.toyPegin [[1]] [⟨[7], 10000⟩]), .accept .toy (.toy 2 0), .rollback .toy 1]

lemma Env.toy_steady : Env.toy.Steady .toy fun _ => 0 := by
  refine ⟨rfl, fun hash execution fees e e' => ?_, rfl⟩
  cases e
  exact (Except.ok.inj e').symm

/-- A new block on the head without a proposal. -/
lemma Replayable.of_new {P} {c : Chain} {b : SignedConsensusBlock}
    (hpar : c.storage.head.map (·.hash) = some b.message.parentHash)
    (hnew : c.storage.getBlock (b.canonicalRoot P) = none)
    (hproposal : b.message.pegoutPaymentProposal = none) : Replayable P c b := by
  refine ⟨hpar, fun b' e => ?_, fun o mem => ?_⟩
  · rw [hnew] at e
    cases e
  · simp [ConsensusBlock.inputs, hproposal] at mem

/-- A block is imported, rolled back and imported again. -/
theorem run_walletInStep_redelivered :
    let c₁ := Chain.toyReorg (toyRedelivered.take 1)
    let c₂ := Chain.toyReorg toyRedelivered
    c₂.storage.head = some ⟨toyRoot 1 0, 1⟩ ∧ [1] ∈ c₂.bitcoinWallet.rawTxs ∧
      WalletInStep .toy .toy .toy .empty c₂ ∧
      CheckedAlike .toy (.toy 1 0) .toy (.toy 2 0) c₁ c₂ := by
  intro c₁ c₂
  have first : Replayable .toy Chain.toyGenesis (.toyPegin [[1]] [⟨[7], 10000⟩]) :=
    .of_new (by decide) (by decide) rfl
  have second : Replayable .toy c₁ (.toy 2 0) := .of_new (by decide) (by decide) rfl
  have free : PegFreeAbove .toy (Chain.toyReorg (toyRedelivered.take 2)) 1 := by
    intro target e
    have hget : (Chain.toyReorg (toyRedelivered.take 2)).storage.getBlockByHeight 1 =
        some (.toyPegin [[1]] [⟨[7], 10000⟩]) := by decide
    rw [hget, Option.some.injEq] at e
    subst e
    exact ⟨⟨toyRoot 2 0, 2⟩, by decide, .single ⟨.toy 2 0, by decide, rfl, rfl, rfl⟩⟩
  have run₁ : SteadyRun .toy (.toy 1 0) .toy (fun _ => 0) Chain.toyGenesis c₁ :=
    .snoc .refl (Reorg.accept .toy (.toyPegin [[1]] [⟨[7], 10000⟩])) ⟨Env.toy_steady, first⟩
  have run₂ : SteadyRun .toy (.toy 1 0) .toy (fun _ => 0) c₁ c₂ :=
    .snoc (.snoc .refl (Reorg.accept .toy (.toy 2 0)) ⟨Env.toy_steady, second⟩)
      (Reorg.rollback .toy 1) free
  have fees : Env.toyNumbered.FeesOf fun _ => 0 := Env.toy_steady.fees
  obtain ⟨inStep, alike⟩ :=
    run_walletInStep Primitives.toy_rootsSound rfl fees Chain.toyGenesis_eq run₁ run₂
  exact ⟨by decide, by decide, inStep, alike .toy (.toy 2 0) (by decide) (by decide)⟩

/-- A validator imports a deposit and goes back below it: the wallet still knows the deposit. -/
theorem run_walletInStep_fails :
    ¬ ∀ (P : Primitives) (cfg : ChainConfig) (rpc : BitcoinRpc) (fee : ExecutionBlockHash → Nat)
      (env : Env) (spec : ChainSpec) (payload : ExecutionPayload) (w : UtxoManager) (c₀ c : Chain),
      RootsSound P → cfg.isValidator = true → env.FeesOf fee →
      storeGenesis P cfg env spec payload (Chain.new .empty w) = (.ok (), c₀) →
      ReorgRun P cfg (fun _ env _ => env.Steady rpc fee) (fun _ env _ => env.Steady rpc fee) c₀ c →
      WalletInStep P cfg.bitcoinFederation rpc w c := by
  intro all
  let c := Chain.toyReorg [.accept .toy (.toyPegin [[1]] [⟨[7], 10000⟩]), .rollback .toy 0]
  have run : ReorgRun .toy (.toy 1 0) (fun _ env _ => env.Steady .toy fun _ => 0)
      (fun _ env _ => env.Steady .toy fun _ => 0) Chain.toyGenesis c :=
    .snoc (.snoc .refl (Reorg.accept .toy (.toyPegin [[1]] [⟨[7], 10000⟩])) Env.toy_steady)
      (Reorg.rollback .toy 0) Env.toy_steady
  have fees : Env.toyNumbered.FeesOf fun _ => 0 := Env.toy_steady.fees
  obtain ⟨head, chain, hhead, hchain, hreplay⟩ :=
    all _ _ _ _ _ _ _ _ _ c Primitives.toy_rootsSound rfl fees Chain.toyGenesis_eq run
  have genesis : c.storage.head = some ⟨toyRoot 0 0, 0⟩ := by decide
  rw [genesis, Option.some.injEq] at hhead
  subst hhead
  have zero : c.storage.getBlock Hash256.zero = none := by decide
  have known : [1] ∈ c.bitcoinWallet.rawTxs := by decide
  obtain ⟨g, hg⟩ := hchain.stored
  have hgenesis : (c.storage.getBlock (toyRoot 0 0)).all fun g =>
      decide (g.message.parentHash = Hash256.zero) && g.message.pegins.isEmpty &&
        g.message.pegoutPaymentProposal.isNone := by decide
  rw [hg, Option.all_some, Bool.and_eq_true, Bool.and_eq_true] at hgenesis
  obtain ⟨⟨hpar, hpegins⟩, hproposal⟩ := hgenesis
  -- the chain of the head is the genesis block, which registers nothing
  cases hchain.unique (.genesis hg (of_decide_eq_true hpar)) zero
  have hnone : replay .toy .toy .toy ([] ++ [g.message]) = replay .toy .toy .toy [] :=
    replay_snoc_pegFree (List.isEmpty_iff.mp hpegins) (Option.isNone_iff_eq_none.mp hproposal)
  have hwallet : UtxoManager.empty = c.bitcoinWallet :=
    congrArg Prod.snd ((congrFun hnone .empty).symm.trans hreplay)
  rw [← hwallet] at known
  exact absurd known (by decide)

end Alys
