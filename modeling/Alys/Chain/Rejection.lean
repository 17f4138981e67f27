import Alys.Chain.Spending
import Alys.Lib.Atomic

/-!
# What a rejected block leaves behind

`process_block` and `process_approval` return an error for a block that they reject. The wallet, the
peg-in queue, the head in memory, the stored head and the index by height (`Ledger`) are written in
three places before the last step that can fail:

* the validation registers the outputs that it fetched for the proposal, and later checks can fail;
* the import changes the wallet, the queue and the head in memory before the commit to the store;
* the block hash cache, which can refuse the end of the range of an AuxPow, is updated after the
  commit.

A call that returns an error leaves all of it as it was exactly if it fetches nothing, in case it
gets to the proposal (`FetchesNothing`), and if an import that it starts can commit and update the
block hash cache (`FinishesImport`): the checks come first, and every other failure of an import
after its first write ends the node.
-/

namespace Alys
open Lib

/-- The parts of a node that a rejected block should not change. -/
structure Ledger where
  bitcoinWallet : UtxoManager
  queuedPegins : Map Txid PegInInfo
  head : Option BlockRef
  storedHead : Option BlockRef
  blockByHeight : Map Nat Hash256

def Chain.ledger (c : Chain) : Ledger :=
  ⟨c.bitcoinWallet, c.queuedPegins, c.head, c.storage.head, c.storage.blockByHeight⟩

/-- The end of the range of a block's AuxPow, if it has one, is in the block hash cache. -/
def CanReset (hashes : List BlockHash) (m : ConsensusBlock) : Prop :=
  ∀ pow, m.auxpowHeader = some pow → pow.rangeEnd ∈ hashes

/-- The checks of a block get to its peg-out proposal, and the proposal passes. -/
structure PassesProposal (P : Primitives) (cfg : ChainConfig) (env : Env) (b : SignedConsensusBlock)
    (c : Chain) (missing : List LocalUtxo) : Prop where
  validator : cfg.isValidator = true
  parent : checkParent P cfg c.storage c.head b = .ok ()
  withdrawals : checkWithdrawals P cfg env.rpc c.storage c.bitcoinWallet b = .ok ()
  proposal : findMissingUtxos P cfg env c.bitcoinWallet b = .ok missing

/-- The inputs of a proposal that is checked are recorded as unspent. -/
def FetchesNothing (P : Primitives) (cfg : ChainConfig) (env : Env) (b : SignedConsensusBlock)
    (c : Chain) : Prop :=
  ∀ missing, PassesProposal P cfg env b c missing → b.number ≠ 70132 →
    ∀ o ∈ b.message.inputs, c.bitcoinWallet.hasSpendableUtxo o = true

/-- The import of a block gets to its first write: the execution layer accepts the payload and has
the receipts, and the fees can be accumulated. -/
structure StartsImport (P : Primitives) (env : Env) (s : Storage) (b : SignedConsensusBlock) :
    Prop where
  payload : env.commitBlock b.message.executionPayload = .ok ()
  fees : ∃ execution ops,
    env.getBlockAndReceipts b.message.executionPayload.blockHash = .ok execution ∧
    accumulateFees P s b execution.1 execution.2 = .ok ops

/-- Where the candidate of a hash is approved and its import started, the commit succeeds and the
block hash cache can be updated. -/
def FinishesImport (P : Primitives) (cfg : ChainConfig) (env : Env) (hash : Hash256) (c : Chain) :
    Prop :=
  ∀ b, c.blockCandidates.getBlock hash = some b → cfg.aura.majorityApproved P b = .ok true →
    StartsImport P env c.storage b → env.commitOps = true ∧ CanReset c.blockHashCache b.message

/-- The condition on a block: nothing is fetched for it, and the candidate that it becomes or finds
can be imported. -/
structure BlockSafe (P : Primitives) (cfg : ChainConfig) (env : Env) (b : SignedConsensusBlock)
    (c : Chain) : Prop where
  fetches : FetchesNothing P cfg env b c
  finishes : ∀ c₁ r c₂, validateBlock P cfg env b c = (.ok (), c₁) →
    storeCandidate P cfg b c₁ = (.ok r, c₂) → FinishesImport P cfg env (b.canonicalRoot P) c₂

/-- The condition on an approval. -/
def ApprovalSafe (P : Primitives) (cfg : ChainConfig) (env : Env) (approval : ApproveBlock)
    (c : Chain) : Prop :=
  ∀ c₁, ChainM.onCandidates (BlockCandidateCache.addApproval P approval cfg.aura.authorities
      c.syncStatus.isSynced) c = (.ok (), c₁) →
    FinishesImport P cfg env approval.blockHash c₁

/-- A failure that is returned, and does not end the node. -/
def Returned (f : Failure) : Prop := ∃ e, f = .error e

/-! ## Import -/

section
variable {P : Primitives} {cfg : ChainConfig} {env : Env} {b : SignedConsensusBlock}
  {hashes : List BlockHash}

/-- The block hash cache has not been updated. -/
def HashesAre (hashes : List BlockHash) (c : Chain) : Prop := c.blockHashCache = hashes

lemma not_returned_panic : ¬ Returned .panic := nofun

variable {f : Failure}

lemma okOr_panic {α : Type} {o : Option α} (e : okOr o .panic = .error f) :
    ¬ Returned f := by
  cases o with
  | none =>
    cases e
    exact not_returned_panic
  | some => cases e

lemma importPegs_completes :
    Action.Completes Returned (HashesAre hashes) (importPegs P cfg env b) (HashesAre hashes) := by
  refine .bind (.forEach fun pegin _ => ?_) fun _ =>
    .bind (J := HashesAre hashes) ?_ fun _ => .modify fun c h => h
  · refine .bind (J := HashesAre hashes) (.modify fun c h => h) fun _ => ?_
    exact .lift_bind (fun f e => okOr_panic e) fun tx _ => .modify fun c h => h
  · cases b.message.pegoutPaymentProposal with
    | none => exact .pure fun c h => h
    | some tx =>
      rw [importPegout]
      refine .zoom ?_ fun _ => not_returned_panic
      exact fun c w h => h

lemma updateHeadRefOps_completes {ref : BlockRef} {rollbackOverride : Bool} :
    Action.Completes Returned (HashesAre hashes) (updateHeadRefOps ref rollbackOverride)
      (HashesAre hashes) := by
  refine .get_bind fun c => ?_
  split
  · exact .pure fun c h => h
  · exact .bind (J := HashesAre hashes) (.modify fun c h => h) fun _ => .pure fun c h => h

lemma finalize_completes {pow : AuxPowHeader} :
    Action.Completes Returned (HashesAre hashes) (finalize P b pow) (HashesAre hashes) := by
  refine .bind (J := HashesAre hashes) (.modify fun c h => h) fun _ => .get_bind fun c => ?_
  split
  · exact .fail not_returned_panic
  · exact .pure fun c h => h

lemma resetWith_ne_error {hash : BlockHash} (mem : hash ∈ hashes) :
    resetWith hashes hash ≠ .error f := by
  obtain ⟨index, e⟩ := Option.isSome_iff_exists.mp
    (List.findIdx?_isSome (p := (· = hash)) ▸ List.any_eq_true.mpr ⟨hash, mem, by simp⟩)
  rw [resetWith, e]
  nofun

lemma updateBlockHashCache_completes (hreset : CanReset hashes b.message) :
    Action.Completes Returned (HashesAre hashes) (updateBlockHashCache P b) fun _ => True := by
  rw [updateBlockHashCache]
  split
  case isTrue => exact .pure fun _ _ => trivial
  case isFalse =>
    cases hpow : b.message.auxpowHeader with
    | none => exact .modify fun _ _ => trivial
    | some pow =>
      rintro c rfl
      simp only [Action.bind_apply, Action.get_apply, Action.lift_apply]
      cases hr : resetWith c.blockHashCache pow.rangeEnd with
      | error f => exact absurd hr (resetWith_ne_error (hreset pow hpow))
      | ok hashes => trivial

/-- Once the head in memory is set, storing a block returns no error. -/
lemma storeBlock_completes {ops : List StoreOp} (hcommit : env.commitOps = true)
    (hreset : CanReset hashes b.message) :
    Action.Completes Returned (HashesAre hashes) (storeBlock P env b ops) fun _ => True := by
  have hstore : ∀ ops, Action.Completes Returned (HashesAre hashes)
      (commitImport env b ops >>= fun _ => updateBlockHashCache P b) fun _ => True := by
    intro ops
    rw [commitImport, if_pos hcommit]
    exact .bind (.modify fun c h => h) fun _ => updateBlockHashCache_completes hreset
  refine .bind updateHeadRefOps_completes fun _ => ?_
  cases hpow : b.message.auxpowHeader with
  | none => exact hstore _
  | some pow => exact .bind finalize_completes fun _ => hstore _

/-- When an import changes nothing if it fails. -/
lemma importVerifiedBlock_atomic :
    Action.Atomic Returned Chain.ledger
      (fun c => StartsImport P env c.storage b →
        env.commitOps = true ∧ CanReset c.blockHashCache b.message)
      (importVerifiedBlock P cfg env b) := by
  refine .lift_bind fun _ payload => .lift_bind fun execution executed => .get_bind fun c hc =>
    .lift_bind fun ops accumulated => ?_
  obtain ⟨hcommit, hreset⟩ := hc ⟨payload, execution, ops, executed, accumulated⟩
  have stores : Action.Completes Returned (HashesAre c.blockHashCache) (storeBlock P env b ops)
      fun _ => True := storeBlock_completes hcommit hreset
  split
  · refine .of_completes (J := fun _ => True) fun s hs => ?_
    subst hs
    exact Action.Completes.bind importPegs_completes (fun _ => stores) s rfl
  · refine .of_completes (J := fun _ => True) fun s hs => ?_
    subst hs
    exact stores s rfl

/-! An import that has started and returns an error has moved the head in memory. -/

lemma importPegs_head {head : Option BlockRef} :
    Action.Keeps (fun c => c.head = head) (importPegs P cfg env b) := by
  refine .bind (.forEach fun pegin _ => ?_) fun _ => .bind ?_ fun _ => .modify fun c h => h
  · exact .bind (.modify fun c h => h) fun _ => .lift_bind fun tx _ => .modify fun c h => h
  · cases b.message.pegoutPaymentProposal with
    | none => exact .pure
    | some tx => exact .zoom fun c h => h

/-- A block above the head becomes the head in memory. -/
lemma storeBlock_head {ops : List StoreOp} {c : Chain}
    (above : ∀ ref ∈ c.head, ref.height < b.number) :
    (storeBlock P env b ops c).2.head = some (b.blockRef P) := by
  have rest : ∀ ops, Action.Keeps (fun c => c.head = some (b.blockRef P))
      (commitImport env b ops >>= fun _ => updateBlockHashCache P b) := by
    intro ops
    refine .bind ?_ fun _ => ?_
    · rw [commitImport]
      split
      · exact .modify fun c h => h
      · exact .fail
    · intro c h
      rw [← h]
      exact congrArg Core.head (updateBlockHashCache_frame c).1
  have hmoves : ¬ (c.head.any (fun head => (b.blockRef P).height < head.height) = true ∧
      (!false) = true) := by
    rintro ⟨below, _⟩
    cases hhead : c.head with
    | none => simp [hhead] at below
    | some ref =>
      have hge := above ref hhead
      have hlt : (b.blockRef P).height < ref.height := by simpa [hhead] using below
      change b.number < ref.height at hlt
      omega
  simp only [storeBlock, Action.bind_apply, updateHeadRefOps, Action.get_apply, Action.ite_apply,
    if_neg hmoves, Action.modify_apply, Action.pure_apply]
  cases b.message.auxpowHeader with
  | none => exact rest _ _ rfl
  | some pow =>
    refine Action.Keeps.bind ?_ (fun _ => rest _) _ rfl
    refine .bind (.modify fun c h => h) fun _ => .bind .get fun c => ?_
    split
    · exact .fail
    · exact .pure

/-- An import that fails after it started has moved the head. -/
lemma importVerifiedBlock_head {c : Chain} (starts : StartsImport P env c.storage b)
    (above : ∀ ref ∈ c.head, ref.height < b.number)
    (e : (importVerifiedBlock P cfg env b c).1 = .error f) (returned : Returned f) :
    (importVerifiedBlock P cfg env b c).2.head = some (b.blockRef P) := by
  obtain ⟨payload, execution, ops, executed, accumulated⟩ := starts
  simp only [importVerifiedBlock, importVerifiedBlockNoCommit, Action.bind_apply, Action.lift_apply,
    Action.get_apply, payload, executed, accumulated, Action.ite_apply] at e ⊢
  by_cases hv : cfg.isValidator = true
  · simp only [if_pos hv] at e ⊢
    have pegs := @importPegs_completes P cfg env b _ c rfl
    have hhead := @importPegs_head P cfg env b _ c rfl
    rcases hpegs : importPegs P cfg env b c with ⟨f' | _, c'⟩
    · simp only [hpegs] at e pegs
      cases e
      exact absurd returned pegs
    · rw [hpegs] at hhead
      refine storeBlock_head fun ref href => above ref ?_
      rw [← hhead]
      exact href
  · simp only [if_neg hv] at e ⊢
    exact storeBlock_head above

end

/-! ## Steps -/

section
variable {P : Primitives} {cfg : ChainConfig} {env : Env} {b : SignedConsensusBlock}

/-- Adding to the candidates leaves the ledger. -/
lemma storeCandidate_ledger (c : Chain) :
    (storeCandidate P cfg b c).2.ledger = c.ledger := by
  have keeps : Action.Keeps (fun c' => c'.ledger = c.ledger) (storeCandidate P cfg b) := by
    refine .bind .get fun c' => .bind (.zoom fun _ h => h) fun _ => ?_
    cases cfg.aura.authority with
    | none => exact .pure
    | some authority => exact .bind (.zoom fun _ h => h) fun _ => .pure
  exact keeps c rfl

lemma maybeAcceptBlock_atomic {hash : Hash256} :
    Action.Atomic Returned Chain.ledger (FinishesImport P cfg env hash)
      (maybeAcceptBlock P cfg env hash) := by
  intro c hc f hf hreturned
  obtain e | ⟨b, hb, approved, e⟩ := maybeAcceptBlock_cases (P := P) c
  · rw [e]
  · rw [e] at hf ⊢
    exact importVerifiedBlock_atomic _ (hc b hb approved) f hf hreturned

lemma processApproval_atomic {approval : ApproveBlock} :
    Action.Atomic Returned Chain.ledger (ApprovalSafe P cfg env approval)
      (processApproval P cfg env approval) := by
  refine .get_bind fun c hc => .bind (fun _ _ => rfl) ?_ fun _ => maybeAcceptBlock_atomic
  intro s _ c₁ hs stored
  subst hs
  exact hc c₁ stored

/-- What follows the checks of a block. -/
lemma acceptCandidate_atomic :
    Action.Atomic Returned Chain.ledger
      (fun c₁ => ∀ r c₂, storeCandidate P cfg b c₁ = (.ok r, c₂) →
        FinishesImport P cfg env (b.canonicalRoot P) c₂) do
      let ourApproval ← storeCandidate P cfg b
      maybeAcceptBlock P cfg env (b.canonicalRoot P)
      return ourApproval := by
  refine .bind (fun c _ => storeCandidate_ledger c) ?_ fun r => maybeAcceptBlock_atomic.bind_pure
  exact fun c₁ r c₂ hc stored => hc r c₂ stored

/-- The candidates of a node are above its head in memory. -/
def CandidatesAbove (c : Chain) : Prop :=
  c.blockCandidates.Holds fun m => ∀ ref ∈ c.head, ref.height < m.executionPayload.blockNumber

/-- An acceptance that returns an error and leaves the head has not started an import that cannot
finish. -/
lemma finishesImport_of_unchanged {hash : Hash256} {c : Chain} {f : Failure}
    (above : CandidatesAbove c) (e : (maybeAcceptBlock P cfg env hash c).1 = .error f)
    (returned : Returned f) (same : (maybeAcceptBlock P cfg env hash c).2.head = c.head) :
    FinishesImport P cfg env hash c := by
  intro b hb approved starts
  have imports : maybeAcceptBlock P cfg env hash c =
      importVerifiedBlock P cfg env b { c with blockCandidates := .empty } := by
    simp only [maybeAcceptBlock, Action.bind_apply, Action.get_apply, hb, Action.lift_apply,
      approved, Action.modify_apply, if_true]
  have hbelow := above b (BlockCandidateCache.getBlock_caches hb)
  rw [imports] at e same
  have hhead : c.head = some (b.blockRef P) := by
    rw [← importVerifiedBlock_head (c := { c with blockCandidates := .empty }) starts hbelow e
      returned]
    exact same.symm
  exact absurd (hbelow _ hhead) (Nat.lt_irrefl _)

end

/-! ## Fetching -/

section
variable {P : Primitives} {cfg : ChainConfig} {env : Env} {b : SignedConsensusBlock} {c : Chain}
  {missing : List LocalUtxo}

/-- A validation registers what the check of the proposal returns, if it gets there. -/
lemma PassesProposal.validateBlock_snd (h : PassesProposal P cfg env b c missing) :
    (validateBlock P cfg env b c).2 = c.registerUtxos missing := by
  simp only [validateBlock, checkPegoutProposal, Action.bind_apply, Action.get_apply,
    Action.lift_apply, h.parent, if_pos h.validator, h.withdrawals, h.proposal,
    Action.modify_apply]

lemma validateBlock_snd_of_not_passes (h : ∀ missing, ¬ PassesProposal P cfg env b c missing) :
    (validateBlock P cfg env b c).2 = c := by
  simp only [validateBlock, checkPegoutProposal, Action.bind_apply, Action.get_apply,
    Action.lift_apply, Action.ite_apply]
  cases hp : checkParent P cfg c.storage c.head b with
  | error f => rfl
  | ok =>
    by_cases hv : cfg.isValidator = true
    case neg =>
      simp only [if_neg hv]
    simp only [if_pos hv]
    cases hw : checkWithdrawals P cfg env.rpc c.storage c.bitcoinWallet b with
    | error f => rfl
    | ok =>
      simp only
      cases hm : findMissingUtxos P cfg env c.bitcoinWallet b with
      | error f => rfl
      | ok missing => exact absurd ⟨hv, hp, hw, hm⟩ (h missing)

/-- Registering what was fetched for a proposal changes the wallet. -/
lemma PassesProposal.registerUtxos_eq_iff (h : PassesProposal P cfg env b c missing) :
    c.bitcoinWallet.registerUtxos missing = c.bitcoinWallet ↔
      (b.number ≠ 70132 → ∀ o ∈ b.message.inputs, c.bitcoinWallet.hasSpendableUtxo o = true) := by
  obtain ⟨hn, rfl⟩ | ⟨hn, fetched, provided⟩ := findMissingUtxos_inputs h.proposal
  · exact ⟨fun _ hn' => absurd hn hn', fun _ => rfl⟩
  have unspent : ∀ utxo ∈ missing, utxo.isSpent = false := by
    intro utxo mem
    obtain ⟨_, _, e⟩ := fetched utxo mem
    exact (UtxoManager.tryFetchUtxo_ok e).2
  constructor
  · intro same _ o ho
    rw [← same]
    exact (UtxoManager.hasSpendableUtxo_registerUtxos unspent).mpr (provided o ho)
  · intro recorded
    have hnil : missing = [] :=
      FetchedFor.eq_nil (.inr ⟨h.validator, h.proposal⟩) (recorded hn)
    rw [hnil]
    rfl

/-- A validation leaves the ledger exactly if it fetches nothing. -/
lemma validateBlock_ledger_iff :
    (validateBlock P cfg env b c).2.ledger = c.ledger ↔ FetchesNothing P cfg env b c := by
  by_cases hpass : ∃ missing, PassesProposal P cfg env b c missing
  · obtain ⟨missing, passes⟩ := hpass
    rw [passes.validateBlock_snd]
    constructor
    · intro same missing' passes'
      obtain rfl : missing' = missing := by
        have e := passes'.proposal
        rw [passes.proposal] at e
        cases e
        rfl
      exact passes.registerUtxos_eq_iff.mp (congrArg Ledger.bitcoinWallet same)
    · intro fetches
      have same := passes.registerUtxos_eq_iff.mpr (fetches missing passes)
      rw [Chain.registerUtxos, same]
  · rw [not_exists] at hpass
    rw [validateBlock_snd_of_not_passes hpass]
    exact ⟨fun _ missing passes => absurd passes (hpass missing), fun _ => rfl⟩

end

/-! ## Rejected blocks and approvals -/

section
variable {P : Primitives} {cfg : ChainConfig} {env : Env} {c : Chain} {b : SignedConsensusBlock}
  {f : Failure}

lemma processBlock_unchanged (safe : BlockSafe P cfg env b c)
    (e : (processBlock P cfg env b c).1 = .error f) (returned : Returned f) :
    (processBlock P cfg env b c).2.ledger = c.ledger := by
  have hfetch := validateBlock_ledger_iff.mpr safe.fetches
  have rest := @acceptCandidate_atomic P cfg env b
  rw [processBlock, Action.bind_apply] at e ⊢
  rcases hv : validateBlock P cfg env b c with ⟨f' | _, c₁⟩
  · rw [hv] at hfetch
    exact hfetch
  · rw [hv] at e hfetch
    rw [← hfetch]
    exact rest c₁ (fun r c₂ => safe.finishes c₁ r c₂ hv) f e returned

/-- The condition is necessary for blocks. -/
lemma blockSafe_of_unchanged (above : CandidatesAbove c)
    (e : (processBlock P cfg env b c).1 = .error f) (returned : Returned f)
    (same : (processBlock P cfg env b c).2.ledger = c.ledger) : BlockSafe P cfg env b c := by
  obtain ⟨missing, valid, hv⟩ | ⟨f', missing, fetched, hv⟩ := @validateBlock_cases P cfg env b c
  · have finishes : ∀ r c₂, storeCandidate P cfg b (c.registerUtxos missing) = (.ok r, c₂) →
        FinishesImport P cfg env (b.canonicalRoot P) c₂ := by
      intro r c₂ hs
      have keeps : Action.Keeps (Stage (c.core.registerUtxos missing)
          (·.Holds fun m => ∀ ref ∈ c.head, ref.height < m.executionPayload.blockNumber))
          (storeCandidate P cfg b) :=
        storeCandidate_keeps (fun h => h.insert (checkParent_eq_ok_iff.mp valid.parent).2.1)
          fun _ h => h.addApproval
      obtain ⟨hcore, hcached⟩ := keeps (c.registerUtxos missing) ⟨rfl, above⟩
      rw [hs] at hcore hcached
      have hhead : c₂.head = c.head := congrArg Core.head hcore
      have above₂ : CandidatesAbove c₂ := by
        rw [CandidatesAbove, hhead]
        exact hcached
      rw [processBlock_snd hv hs] at same
      refine finishesImport_of_unchanged (f := f) above₂ ?_ returned ?_
      · rw [processBlock_fst hv hs] at e
        exact e
      · rw [hhead]
        exact congrArg Ledger.head same
    have hrest := @acceptCandidate_atomic P cfg env b (c.registerUtxos missing) finishes f
    have hfetch : (validateBlock P cfg env b c).2.ledger = c.ledger := by
      rw [hv, ← same]
      simp only [processBlock, Action.bind_apply, hv] at e ⊢
      exact (hrest e returned).symm
    refine ⟨validateBlock_ledger_iff.mp hfetch, fun c₁ r c₂ hv' hs => ?_⟩
    rw [hv] at hv'
    cases hv'
    exact finishes r c₂ hs
  · have hfetch : (validateBlock P cfg env b c).2.ledger = c.ledger := by
      simp only [processBlock, Action.bind_apply, hv] at same
      rw [hv]
      exact same
    refine ⟨validateBlock_ledger_iff.mp hfetch, fun c₁ r c₂ hv' => ?_⟩
    rw [hv] at hv'
    cases hv'

/-- The condition is necessary for approvals. -/
lemma approvalSafe_of_unchanged {a : ApproveBlock} (above : CandidatesAbove c)
    (e : (processApproval P cfg env a c).1 = .error f) (returned : Returned f)
    (same : (processApproval P cfg env a c).2.ledger = c.ledger) : ApprovalSafe P cfg env a c := by
  intro c₁ hs
  obtain ⟨hcore, hcached⟩ := ChainM.onCandidates_keeps (k := c.core)
    (I := (·.Holds fun m => ∀ ref ∈ c.head, ref.height < m.executionPayload.blockNumber))
    (x := BlockCandidateCache.addApproval P a cfg.aura.authorities c.syncStatus.isSynced)
    (fun _ h => h.addApproval) c ⟨rfl, above⟩
  rw [hs] at hcore hcached
  have hhead : c₁.head = c.head := congrArg Core.head hcore
  have above₁ : CandidatesAbove c₁ := by
    rw [CandidatesAbove, hhead]
    exact hcached
  simp only [processApproval, Action.bind_apply, Action.get_apply, hs] at e same
  refine finishesImport_of_unchanged above₁ e returned ?_
  rw [hhead]
  exact congrArg Ledger.head same

/-- A node got to its state by a run from one without candidates. -/
def Reachable (P : Primitives) (cfg : ChainConfig) (c : Chain) : Prop :=
  ∃ c₀ : Chain, c₀.blockCandidates = .empty ∧
    NodeRun P cfg (fun _ => True) (fun _ _ _ => True) c₀ c

/-- The candidates are above the head in every run: a block becomes one if it is, and the import
that moves the head clears them. -/
lemma Reachable.candidatesAbove (h : Reachable P cfg c) : CandidatesAbove c := by
  obtain ⟨c₀, empty, r⟩ := h
  have U : Maintains P cfg (fun _ => True) (fun _ _ _ => True) (fun _ => True)
      (fun k m => ∀ ref ∈ k.head, ref.height < m.executionPayload.blockNumber) :=
    { fetch := fun _ _ _ => ⟨trivial, fun _ h => h⟩
      valid := fun _ _ valid => (checkParent_eq_ok_iff.mp valid.parent).2.1
      imports := fun _ _ _ _ _ => trivial
      restart := fun _ => trivial }
  exact (U.run_inv r trivial empty).2

end

/-- A rejected block or approval changes nothing if no outputs are fetched for the block, in case
its proposal is checked, and if an import that the call starts can commit and update the block hash
cache. At a node that can be reached it changes something otherwise. -/
theorem rejected_unchanged {P : Primitives} {cfg : ChainConfig} {env : Env} {c : Chain} :
    (∀ b e, (processBlock P cfg env b c).1 = .error (.error e) →
      (BlockSafe P cfg env b c → (processBlock P cfg env b c).2.ledger = c.ledger) ∧
      (Reachable P cfg c → (processBlock P cfg env b c).2.ledger = c.ledger →
        BlockSafe P cfg env b c)) ∧
    ∀ a e, (processApproval P cfg env a c).1 = .error (.error e) →
      (ApprovalSafe P cfg env a c → (processApproval P cfg env a c).2.ledger = c.ledger) ∧
      (Reachable P cfg c → (processApproval P cfg env a c).2.ledger = c.ledger →
        ApprovalSafe P cfg env a c) := by
  refine ⟨fun b e herr => ⟨fun safe => ?_, fun reachable same => ?_⟩,
    fun a e herr => ⟨fun safe => ?_, fun reachable same => ?_⟩⟩
  · exact processBlock_unchanged safe herr ⟨e, rfl⟩
  · exact blockSafe_of_unchanged reachable.candidatesAbove herr ⟨e, rfl⟩ same
  · exact processApproval_atomic c safe _ herr ⟨e, rfl⟩
  · exact approvalSafe_of_unchanged reachable.candidatesAbove herr ⟨e, rfl⟩ same

/-- With a store that refuses every commit: the genesis block once more, an accepted block
whose payload the execution layer refuses, and the approval of a block that is not a candidate. -/
theorem rejected_unchanged_refused :
    let env := { Env.toy with commitOps := false }
    let refusing := { env with commitBlock := fun _ => .error (.error .engineApiError) }
    let c := Chain.new .toy .empty
    (processBlock .toy (.toy 1 0) env (.toy 0 0) c).2.ledger = c.ledger ∧
      (processBlock .toy (.toy 1 0) refusing (.toy 1 0) c).2.ledger = c.ledger ∧
      (processApproval .toy (.toy 1 0) env ⟨toyRoot 7 0, ⟨[], 0⟩⟩ c).2.ledger = c.ledger := by
  intro env refusing c
  have genesis : BlockSafe .toy (.toy 1 0) env (.toy 0 0) c := by
    refine ⟨fun missing passes => ?_, fun c₁ r c₂ valid => ?_⟩
    · cases passes.parent
    · cases congrArg Prod.fst valid
  have refused : BlockSafe .toy (.toy 1 0) refusing (.toy 1 0) c := by
    refine ⟨fun missing _ _ o mem => ?_, fun c₁ r c₂ _ _ b _ _ starts => ?_⟩
    · cases mem
    · cases starts.payload
  have unknown : ApprovalSafe .toy (.toy 1 0) env ⟨toyRoot 7 0, ⟨[], 0⟩⟩ c := by
    intro c₁ stored b candidate
    cases stored
    cases candidate
  exact ⟨(rejected_unchanged.1 _ .processGenesis rfl).1 genesis,
    (rejected_unchanged.1 _ .engineApiError rfl).1 refused,
    (rejected_unchanged.2 _ .candidateCacheError rfl).1 unknown⟩

/-- When the commit fails the block is rejected, but the head in memory has moved to it. -/
theorem rejected_unchanged_fails :
    ¬ ∀ (P : Primitives) (cfg : ChainConfig) (env : Env) (c : Chain) (b : SignedConsensusBlock)
      (e : Error), (processBlock P cfg env b c).1 = .error (.error e) →
      (processBlock P cfg env b c).2.ledger = c.ledger := by
  intro all
  have herr : (processBlock .toy (.toy 1 0) { Env.toy with commitOps := false } (.toy 1 0)
      (Chain.new .toy .empty)).1 = .error (.error .storageError) := rfl
  have hhead := congrArg Ledger.head (all _ _ _ _ _ _ herr)
  revert hhead
  decide

end Alys
