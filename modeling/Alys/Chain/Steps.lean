import Alys.Chain.Process
import Alys.Lib.Run

/-!
# Steps and runs of a node

What a step of the node can do, stated once: the cases of a validation, of an import and of an
acceptance, and the rule that derives an invariant of all runs from them (`Maintains.run`).

The properties of runs concern the store, the head in memory, the wallet and the committed imports
(`Core`). A step changes them in three ways: validating a block registers outputs that were fetched,
importing a block writes the wallet and the store, and a restart takes the head from the store.
Imports start from a candidate, so the rule carries a second property, of the cached messages. The
cache is cleared before an import, so that property may speak about the core at that time.
-/

namespace Alys
open Lib

/-! ## The core of the state -/

/-- The fields of `Chain` that properties of runs are about. -/
structure Core where
  storage : Storage
  head : Option BlockRef
  bitcoinWallet : UtxoManager
  imported : List Import

/-- The core of a node. -/
def Chain.core (c : Chain) : Core := ⟨c.storage, c.head, c.bitcoinWallet, c.imported⟩

namespace Core

/-- The core after outputs were registered. -/
def registerUtxos (missing : List LocalUtxo) (k : Core) : Core :=
  { k with bitcoinWallet := k.bitcoinWallet.registerUtxos missing }

/-- The core after a restart. -/
def restart (k : Core) : Core := { k with head := k.storage.head }

end Core

/-! ## Validation -/

/-- The outputs that a block makes a node register: none, or those its proposal lacks. -/
def FetchedFor (P : Primitives) (cfg : ChainConfig) (env : Env) (b : SignedConsensusBlock)
    (w : UtxoManager) (missing : List LocalUtxo) : Prop :=
  missing = [] ∨ cfg.isValidator = true ∧ findMissingUtxos P cfg env w b = .ok missing

/-- A block passes the checks of `process_block`, in the course of which outputs are registered. -/
structure Validated (P : Primitives) (cfg : ChainConfig) (env : Env) (b : SignedConsensusBlock)
    (k : Core) (missing : List LocalUtxo) : Prop where
  parent : checkParent P cfg k.storage k.head b = .ok ()
  withdrawals : cfg.isValidator = true →
    checkWithdrawals P cfg env.rpc k.storage k.bitcoinWallet b = .ok ()
  proposal : cfg.isValidator = true → findMissingUtxos P cfg env k.bitcoinWallet b = .ok missing
  fetched : FetchedFor P cfg env b k.bitcoinWallet missing
  auxPow : checkAuxPow P cfg k.storage (k.bitcoinWallet.registerUtxos missing) b = .ok ()

/-- The blocks that pass the first checks: above the head in memory, with a stored parent whose
payload the payload extends, and signed by the author of their slot. -/
lemma checkParent_eq_ok_iff {P cfg s head b} :
    checkParent P cfg s head b = .ok () ↔
      b.message.parentHash ≠ Hash256.zero ∧ (∀ ref ∈ head, ref.height < b.number) ∧
      (∃ prev, s.getBlock b.message.parentHash = some prev ∧
        b.message.executionPayload.parentHash = prev.message.executionPayload.blockHash) ∧
      cfg.aura.checkSignedByAuthor P b = .ok () := by
  by_cases hz : b.message.parentHash = Hash256.zero
  · simp only [checkParent, if_pos hz]
    exact ⟨nofun, fun h => absurd hz h.1⟩
  have habove : (∀ ref ∈ head, ref.height < b.number) ↔
      ¬ head.any (fun head => b.number ≤ head.height) := by
    cases head <;> simp
  by_cases hh : head.any fun head => b.number ≤ head.height
  · simp only [checkParent, if_neg hz, if_pos hh]
    exact ⟨nofun, fun h => absurd hh (habove.mp h.2.1)⟩
  simp only [checkParent, if_neg hz, if_neg hh, bind_eq_ok_iff, Storage.getParent, okOr_eq_ok_iff]
  constructor
  · rintro ⟨prev, hprev, e⟩
    split at e
    case isTrue => cases e
    case isFalse h => exact ⟨hz, habove.mpr hh, ⟨prev, hprev, not_not.mp h⟩, e⟩
  · rintro ⟨_, _, ⟨prev, hprev, hexec⟩, hsig⟩
    exact ⟨prev, hprev, by rw [if_neg (not_not.mpr hexec)]; exact hsig⟩

/-- A validation succeeds for a valid block and fails otherwise; its only effect is the registering.
-/
lemma validateBlock_cases {P cfg env b} (c : Chain) :
    (∃ missing, Validated P cfg env b c.core missing ∧
      validateBlock P cfg env b c = (.ok (), c.registerUtxos missing)) ∨
    ∃ e missing, FetchedFor P cfg env b c.bitcoinWallet missing ∧
      validateBlock P cfg env b c = (.error e, c.registerUtxos missing) := by
  simp only [validateBlock, checkPegoutProposal, Action.bind_apply, Action.get_apply,
    Action.lift_apply, Action.ite_apply]
  cases hp : checkParent P cfg c.storage c.head b with
  | error e => exact .inr ⟨e, [], .inl rfl, rfl⟩
  | ok =>
    by_cases hv : cfg.isValidator = true
    case neg =>
      simp only [if_neg hv]
      cases ha : checkAuxPow P cfg c.storage c.bitcoinWallet b with
      | error e => exact .inr ⟨e, [], .inl rfl, rfl⟩
      | ok => exact .inl ⟨[], ⟨hp, (absurd · hv), (absurd · hv), .inl rfl, ha⟩, rfl⟩
    simp only [if_pos hv]
    cases hw : checkWithdrawals P cfg env.rpc c.storage c.bitcoinWallet b with
    | error e => exact .inr ⟨e, [], .inl rfl, rfl⟩
    | ok =>
      simp only
      cases hm : findMissingUtxos P cfg env c.bitcoinWallet b with
      | error e => exact .inr ⟨e, [], .inl rfl, rfl⟩
      | ok missing =>
        have fetched : FetchedFor P cfg env b c.bitcoinWallet missing := .inr ⟨hv, hm⟩
        simp only [Action.modify_apply]
        cases ha : checkAuxPow P cfg (c.registerUtxos missing).storage
            (c.registerUtxos missing).bitcoinWallet b with
        | error e => exact .inr ⟨e, missing, fetched, rfl⟩
        | ok => exact .inl ⟨missing, ⟨hp, fun _ => hw, fun _ => hm, fetched, ha⟩, rfl⟩

/-! ## Candidates -/

/-- The node has a given core, and its cache a property. -/
def Stage (k : Core) (I : BlockCandidateCache → Prop) (c : Chain) : Prop :=
  c.core = k ∧ I c.blockCandidates

variable {I : BlockCandidateCache → Prop} {b : SignedConsensusBlock} {c : Chain}

/-- A computation on the cache leaves the core. -/
lemma ChainM.onCandidates_keeps {α k} {x : Action BlockCandidateCache Failure α}
    (h : ∀ c : BlockCandidateCache, I c → I (x c).2) :
    Action.Keeps (Stage k I) (ChainM.onCandidates x) := by
  refine .zoom ?_
  rintro c ⟨rfl, hc⟩
  exact ⟨rfl, h _ hc⟩

/-- Storing a candidate leaves the core; it inserts the block and adds the node's own approval. -/
lemma storeCandidate_keeps {P cfg b k}
    (insert : ∀ {c isSyncing}, I c → I (BlockCandidateCache.insert P b isSyncing c).2)
    (approve : ∀ {c isSyncing authority}, cfg.aura.authority = some authority → I c →
      I (BlockCandidateCache.addApproval P ⟨b.canonicalRoot P, b.message.sign P authority⟩
        cfg.aura.authorities isSyncing c).2) :
    Action.Keeps (Stage k I) (storeCandidate P cfg b) := by
  unfold storeCandidate
  refine .bind .get fun c => ?_
  refine .bind (ChainM.onCandidates_keeps fun _ h => insert h) fun _ => ?_
  cases ha : cfg.aura.authority with
  | none => exact .pure
  | some authority =>
    exact .bind (ChainM.onCandidates_keeps fun _ h => approve ha h) fun _ => .pure

/-- An acceptance does nothing, or imports a candidate that a majority approved after clearing the
cache. -/
lemma maybeAcceptBlock_cases {P cfg env hash} (c : Chain) :
    (maybeAcceptBlock P cfg env hash c).2 = c ∨
    ∃ b, c.blockCandidates.getBlock hash = some b ∧ cfg.aura.majorityApproved P b = .ok true ∧
      maybeAcceptBlock P cfg env hash c =
        importVerifiedBlock P cfg env b { c with blockCandidates := .empty } := by
  simp only [maybeAcceptBlock, Action.bind_apply, Action.get_apply]
  cases hb : c.blockCandidates.getBlock hash with
  | none => exact .inl rfl
  | some b =>
    simp only [Action.bind_apply, Action.lift_apply, Action.ite_apply]
    cases hm : cfg.aura.majorityApproved P b with
    | error e => exact .inl rfl
    | ok majority =>
      cases majority with
      | false => exact .inl rfl
      | true => exact .inr ⟨b, rfl, hm, rfl⟩

/-! ## Import -/

/-- What an import does to the wallet for one peg-in. -/
def UtxoManager.importPegin (P : Primitives) (F : Federation) (rpc : BitcoinRpc)
    (pegin : Txid × BlockHash) : Action UtxoManager Failure Unit := do
  let tx ← Action.lift (okOr (Bridge.fetchTransaction rpc pegin.1 pegin.2) .panic)
  Action.modify (UtxoManager.registerPegin P F tx)

/-- What an import does to the wallet for a peg-out proposal. -/
def UtxoManager.importPegout (P : Primitives) (F : Federation) :
    Option Transaction → Action UtxoManager Failure Unit
  | none => pure ()
  | some tx => Action.zoom id (fun w _ => w) (fun _ => .panic) (UtxoManager.registerPegout P F tx)

/-- What an import does to the wallet. -/
def UtxoManager.importPegs (P : Primitives) (F : Federation) (rpc : BitcoinRpc)
    (m : ConsensusBlock) : Action UtxoManager Failure Unit := do
  Action.forEach m.pegins (UtxoManager.importPegin P F rpc)
  UtxoManager.importPegout P F m.pegoutPaymentProposal

/-- What an import does to the wallet of a node, if it is a validator. -/
def importWallet (P : Primitives) (cfg : ChainConfig) (env : Env) (m : ConsensusBlock) :
    Action UtxoManager Failure Unit :=
  if cfg.isValidator then UtxoManager.importPegs P cfg.bitcoinFederation env.rpc m else pure ()

/-- A block does not lie below the head. -/
def Core.advances (k : Core) (b : SignedConsensusBlock) : Bool :=
  !k.head.any fun head => b.number < head.height

lemma Core.advances_iff {k : Core} :
    k.advances b = true ↔ ∀ head ∈ k.head, head.height ≤ b.number := by
  cases h : k.head <;> simp [Core.advances, h]

/-- The core once the head in memory was moved to a block that does not lie below it. -/
def Core.withHead (P : Primitives) (b : SignedConsensusBlock) (k : Core) : Core :=
  { k with head := if k.advances b then some (b.blockRef P) else k.head }

/-- The store after the operations of an import. -/
def Storage.extend (P : Primitives) (s : Storage) (b : SignedConsensusBlock) (fees : Nat)
    (advances : Bool) : Storage where
  blocks := s.blocks.insert (b.canonicalRoot P) b
  blockByHeight := s.blockByHeight.insert b.number (b.canonicalRoot P)
  blockFees := s.blockFees.insert (b.canonicalRoot P) fees
  head := if advances then some (b.blockRef P) else s.head
  latestPowBlock := if b.message.auxpowHeader.isSome then some (b.blockRef P) else s.latestPowBlock

/-- The core after a committed import. -/
def Core.commit (P : Primitives) (env : Env) (b : SignedConsensusBlock) (fees : Nat) (k : Core) :
    Core :=
  { k.withHead P b with
    storage := k.storage.extend P b fees (k.advances b)
    imported := k.imported ++ [⟨k.storage, b, env⟩] }

/-- The store after a committed import of a block above the head in memory. -/
lemma Core.commit_storage {P} {env : Env} {fees : Nat} {k : Core}
    (above : ∀ head ∈ k.head, head.height < b.number) :
    (k.commit P env b fees).storage = k.storage.extend P b fees true := by
  rw [Core.commit, Core.advances_iff.mpr fun head mem => (above head mem).le]

/-- The end of the range that a block finalizes is stored. -/
def RangeStored (s : Storage) (m : ConsensusBlock) : Prop :=
  ∀ pow, m.auxpowHeader = some pow → pow.rangeEnd ≠ Hash256.zero → (s.getBlock pow.rangeEnd).isSome

/-- How an import can change the core: it ends before the wallet, in the wallet, before the commit
or after it. -/
inductive Imported (P : Primitives) (cfg : ChainConfig) (env : Env) (b : SignedConsensusBlock)
    (k : Core) : Core → Prop where
  | unchanged : Imported P cfg env b k k
  | stopped {e w} (wallet : importWallet P cfg env b.message k.bitcoinWallet = (.error e, w)) :
    Imported P cfg env b k { k with bitcoinWallet := w }
  | dropped {w} (wallet : importWallet P cfg env b.message k.bitcoinWallet = (.ok (), w)) :
    Imported P cfg env b k (Core.withHead P b { k with bitcoinWallet := w })
  | committed {w} (fees : Nat)
    (wallet : importWallet P cfg env b.message k.bitcoinWallet = (.ok (), w))
    (range : RangeStored k.storage b.message) :
    Imported P cfg env b k (Core.commit P env b fees { k with bitcoinWallet := w })

/-- The node after its wallet was changed, up to fields outside the core and the cache. -/
def Chain.WalletSet (c : Chain) (w : UtxoManager) (c' : Chain) : Prop :=
  c'.core = { c.core with bitcoinWallet := w } ∧ c'.blockCandidates = c.blockCandidates

/-- The peg-ins of an import act on the wallet as `UtxoManager.importPegin` does. -/
lemma forEach_importPegin {P cfg env} (pegins : List (Txid × BlockHash)) (c : Chain) :
    ∃ r w c', Action.forEach pegins (importPegin P cfg env) c = (r, c') ∧
      Action.forEach pegins (UtxoManager.importPegin P cfg.bitcoinFederation env.rpc)
        c.bitcoinWallet = (r, w) ∧ c.WalletSet w c' := by
  induction pegins generalizing c with
  | nil => exact ⟨.ok (), c.bitcoinWallet, c, rfl, rfl, rfl, rfl⟩
  | cons pegin pegins ih =>
    simp only [Action.forEach, importPegin, UtxoManager.importPegin, Action.bind_apply,
      Action.modify_apply, Action.lift_apply]
    cases Bridge.fetchTransaction env.rpc pegin.1 pegin.2 with
    | none =>
      exact ⟨.error .panic, c.bitcoinWallet,
        { c with queuedPegins := c.queuedPegins.erase pegin.1 }, rfl, rfl, rfl, rfl⟩
    | some tx =>
      obtain ⟨r, w, c', e, e', hc⟩ := ih
        { c with
          queuedPegins := c.queuedPegins.erase pegin.1
          bitcoinWallet := c.bitcoinWallet.registerPegin P cfg.bitcoinFederation tx }
      exact ⟨r, w, c', e, e', hc⟩

lemma importPegout_wallet {P cfg} (pegout : Option Transaction) (c : Chain) :
    ∃ r w c', importPegout P cfg pegout c = (r, c') ∧
      UtxoManager.importPegout P cfg.bitcoinFederation pegout c.bitcoinWallet = (r, w) ∧
      c.WalletSet w c' := by
  cases pegout with
  | none => exact ⟨.ok (), c.bitcoinWallet, c, rfl, rfl, rfl, rfl⟩
  | some tx => exact ⟨_, _, _, rfl, rfl, rfl, rfl⟩

/-- Imported pegs reach the wallet alone. -/
lemma importPegs_wallet {P cfg env b} (c : Chain) :
    ∃ r w c', importPegs P cfg env b c = (r, c') ∧
      UtxoManager.importPegs P cfg.bitcoinFederation env.rpc b.message c.bitcoinWallet = (r, w) ∧
      c.WalletSet w c' := by
  obtain ⟨r, w, c', e, e', hc⟩ := @forEach_importPegin P cfg env b.message.pegins c
  simp only [importPegs, UtxoManager.importPegs, Action.bind_apply, e, e']
  cases r with
  | error f => exact ⟨.error f, w, c', rfl, rfl, hc⟩
  | ok =>
    have hw : c'.bitcoinWallet = w := congrArg Core.bitcoinWallet hc.1
    obtain ⟨r, w', c'', e, e', hc'⟩ := @importPegout_wallet P cfg b.message.pegoutPaymentProposal c'
    have hset : c.WalletSet w' c'' :=
      ⟨hc'.1.trans (by rw [hc.1]), hc'.2.trans hc.2⟩
    rw [hw] at e'
    simp only [e, e', Action.modify_apply]
    cases r with
    | error f => exact ⟨.error f, w', c'', rfl, rfl, hset⟩
    | ok => exact ⟨.ok (), w', importFinalized P b.message.finalizedPegouts c'', rfl, rfl, hset⟩

/-- The head in memory moves to the imported block unless it lies above it. -/
lemma updateHeadRefOps_apply {P b} (c : Chain) :
    updateHeadRefOps (b.blockRef P) false c =
      (.ok (if c.core.advances b then [.putHead (b.blockRef P)] else []),
        { c with head := (c.core.withHead P b).head }) := by
  simp only [updateHeadRefOps, Action.bind_apply, Action.get_apply, Action.ite_apply]
  by_cases h : c.head.any fun head => b.number < head.height
  · have hadv : c.core.advances b = false := by simp [Core.advances, Chain.core, h]
    rw [if_pos ⟨h, rfl⟩]
    simp only [Core.withHead, hadv, Bool.false_eq_true, if_false]
    rfl
  · have hadv : c.core.advances b = true := by simp [Core.advances, Chain.core, h]
    rw [if_neg fun h' => h h'.1]
    simp only [Core.withHead, hadv, if_true]
    rfl

lemma accumulateFees_ok {P s b executionBlock executionReceipts ops}
    (e : accumulateFees P s b executionBlock executionReceipts = .ok ops) :
    ∃ fees, ops = [.putBlockFees (b.canonicalRoot P) fees] := by
  simp only [accumulateFees, bind_eq_ok_iff] at e
  obtain ⟨_, _, fees, _, e⟩ := e
  cases e
  exact ⟨fees, rfl⟩

/-- The fees that an import adds to those of the parent. -/
lemma accumulateFees_eq_ok {P s b executionBlock executionReceipts fees}
    (e : accumulateFees P s b executionBlock executionReceipts =
      .ok [.putBlockFees (b.canonicalRoot P) fees]) :
    ∃ blockFees, totalFees executionBlock executionReceipts = .ok blockFees ∧
      fees = (if b.message.auxpowHeader.isSome then 0
        else (s.blockFees.lookup b.message.parentHash).getD 0) + blockFees := by
  simp only [accumulateFees, bind_eq_ok_iff] at e
  obtain ⟨blockFees, hfees, sum, hsum, e⟩ := e
  cases e
  exact ⟨blockFees, hfees, checkedU256_eq_ok hsum⟩

lemma updateBlockHashCache_frame {P b} (c : Chain) :
    (updateBlockHashCache P b c).2.core = c.core ∧
      (updateBlockHashCache P b c).2.blockCandidates = c.blockCandidates := by
  simp only [updateBlockHashCache, Action.ite_apply]
  split
  · exact ⟨rfl, rfl⟩
  · cases b.message.auxpowHeader with
    | none => exact ⟨rfl, rfl⟩
    | some header =>
      simp only [Action.bind_apply, Action.get_apply, Action.lift_apply]
      cases resetWith c.blockHashCache header.rangeEnd with
      | error e => exact ⟨rfl, rfl⟩
      | ok hashes => exact ⟨rfl, rfl⟩

/-- The operations of an import, in the order in which they are committed. -/
def importOps (P : Primitives) (k : Core) (b : SignedConsensusBlock) (fees : Nat) : List StoreOp :=
  [.putBlockFees (b.canonicalRoot P) fees] ++ Storage.putBlock (b.canonicalRoot P) b ++
    (if k.advances b then [.putHead (b.blockRef P)] else []) ++
    (if b.message.auxpowHeader.isSome then [.putLatestPowBlock (b.blockRef P)] else [])

lemma applyOps_importOps {P} (k : Core) {s : Storage} {b fees} :
    s.applyOps (importOps P k b fees) = s.extend P b fees (k.advances b) := by
  unfold importOps Storage.extend
  cases k.advances b <;> cases b.message.auxpowHeader <;> rfl

/-- The commit, if it succeeds, and the update of the block hash cache. -/
lemma commitImport_core {P env b k ops} (fees : Nat) (hc : c.core = k.withHead P b)
    (hops : ops = importOps P k b fees) :
    let c' := ((commitImport env b ops >>= fun _ => updateBlockHashCache P b) c).2
    c'.core = (if env.commitOps then k.commit P env b fees else k.withHead P b) ∧
      c'.blockCandidates = c.blockCandidates := by
  simp only [commitImport, Action.bind_apply, Action.ite_apply]
  by_cases hok : env.commitOps = true
  · simp only [if_pos hok, Action.modify_apply]
    obtain ⟨hcore, hcache⟩ := @updateBlockHashCache_frame P b
      { c with storage := c.storage.applyOps ops, imported := c.imported ++ [⟨c.storage, b, env⟩] }
    refine ⟨hcore.trans ?_, hcache⟩
    have hst : c.storage = k.storage := congrArg Core.storage hc
    have himp : c.imported = k.imported := congrArg Core.imported hc
    have hhead : c.head = _ := congrArg Core.head hc
    have hwal : c.bitcoinWallet = k.bitcoinWallet := congrArg Core.bitcoinWallet hc
    simp only [Core.commit, Chain.core, hst, himp, hhead, hwal, hops, applyOps_importOps]
    rfl
  · simp only [if_neg hok, Action.fail_apply]
    exact ⟨hc, trivial⟩

/-- Storing a block is committed if the end of its range is stored and the disk answers; otherwise
only the head in memory moves. -/
lemma storeBlock_cases {P env b} (fees : Nat) (c : Chain) :
    let c' := (storeBlock P env b [.putBlockFees (b.canonicalRoot P) fees] c).2
    c'.blockCandidates = c.blockCandidates ∧
      (RangeStored c.storage b.message ∧ env.commitOps = true ∧
          c'.core = c.core.commit P env b fees ∨
        ¬ (RangeStored c.storage b.message ∧ env.commitOps = true) ∧
          c'.core = c.core.withHead P b) := by
  have ofCommit : ∀ {c₂ ops}, c₂.core = c.core.withHead P b → ops = importOps P c.core b fees →
      RangeStored c.storage b.message → c₂.blockCandidates = c.blockCandidates →
      let c' := ((commitImport env b ops >>= fun _ => updateBlockHashCache P b) c₂).2
      c'.blockCandidates = c.blockCandidates ∧
        (RangeStored c.storage b.message ∧ env.commitOps = true ∧
            c'.core = c.core.commit P env b fees ∨
          ¬ (RangeStored c.storage b.message ∧ env.commitOps = true) ∧
            c'.core = c.core.withHead P b) := by
    intro c₂ ops hcore hops range hcache
    obtain ⟨hcore', hcache'⟩ := commitImport_core fees hcore hops
    refine ⟨hcache'.trans hcache, ?_⟩
    by_cases hok : env.commitOps = true
    · exact .inl ⟨range, hok, hcore'.trans (if_pos hok)⟩
    · exact .inr ⟨fun h => hok h.2, hcore'.trans (if_neg hok)⟩
  simp only [storeBlock, Action.bind_apply, updateHeadRefOps_apply]
  cases hpow : b.message.auxpowHeader with
  | none =>
    have range : RangeStored c.storage b.message := fun pow e => by simp [hpow] at e
    refine ofCommit rfl ?_ range rfl
    simp [importOps, hpow]
  | some pow =>
    simp only [finalize, Action.bind_apply, Action.modify_apply, Action.get_apply, Action.ite_apply]
    by_cases h : pow.rangeEnd ≠ Hash256.zero ∧ (c.storage.getBlock pow.rangeEnd).isNone
    · simp only [if_pos h, Action.fail_apply]
      refine ⟨trivial, .inr ⟨fun hr => ?_, rfl⟩⟩
      have hsome := hr.1 pow hpow h.1
      rw [Option.isNone_iff_eq_none.mp h.2] at hsome
      cases hsome
    · simp only [if_neg h, Action.pure_apply]
      have range : RangeStored c.storage b.message := by
        intro pow' e hz
        rw [hpow, Option.some.injEq] at e
        subst e
        rw [← Option.not_isNone, Bool.not_eq_true', ← Bool.not_eq_true]
        exact fun hn => h ⟨hz, hn⟩
      refine ofCommit rfl ?_ range rfl
      simp [importOps, hpow]

/-- How an import can change the core, with what the outcome says about the environment: unless the
execution layer answers there is no effect, a failed commit moves the head in memory only. -/
inductive Imports (P : Primitives) (cfg : ChainConfig) (env : Env) (b : SignedConsensusBlock)
    (k : Core) : Core → Prop where
  | unchanged : Imports P cfg env b k k
  | stopped {e w} (wallet : importWallet P cfg env b.message k.bitcoinWallet = (.error e, w)) :
    Imports P cfg env b k { k with bitcoinWallet := w }
  | dropped {w} (wallet : importWallet P cfg env b.message k.bitcoinWallet = (.ok (), w))
    (failed : ¬ (RangeStored k.storage b.message ∧ env.commitOps = true)) :
    Imports P cfg env b k (Core.withHead P b { k with bitcoinWallet := w })
  | committed {w execution} (fees : Nat)
    (executed : env.getBlockAndReceipts b.message.executionPayload.blockHash = .ok execution)
    (accumulated : accumulateFees P k.storage b execution.1 execution.2 =
      .ok [.putBlockFees (b.canonicalRoot P) fees])
    (wallet : importWallet P cfg env b.message k.bitcoinWallet = (.ok (), w))
    (range : RangeStored k.storage b.message) (commits : env.commitOps = true) :
    Imports P cfg env b k (Core.commit P env b fees { k with bitcoinWallet := w })

lemma Imports.imported {P cfg env b k k'} (h : Imports P cfg env b k k') :
    Imported P cfg env b k k' := by
  cases h with
  | unchanged => exact .unchanged
  | stopped wallet => exact .stopped wallet
  | dropped wallet => exact .dropped wallet
  | committed fees _ _ wallet range => exact .committed fees wallet range

/-- Storing a block is an import. -/
lemma storeBlock_imports {P cfg env b k w execution} (fees : Nat)
    (executed : env.getBlockAndReceipts b.message.executionPayload.blockHash = .ok execution)
    (accumulated : accumulateFees P k.storage b execution.1 execution.2 =
      .ok [.putBlockFees (b.canonicalRoot P) fees])
    (wallet : importWallet P cfg env b.message k.bitcoinWallet = (.ok (), w))
    (hc : c.core = { k with bitcoinWallet := w }) :
    Imports P cfg env b k
        (storeBlock P env b [.putBlockFees (b.canonicalRoot P) fees] c).2.core ∧
      (storeBlock P env b [.putBlockFees (b.canonicalRoot P) fees] c).2.blockCandidates =
        c.blockCandidates := by
  have hst : c.storage = k.storage := congrArg Core.storage hc
  obtain ⟨hcache, ⟨range, commits, hcore⟩ | ⟨failed, hcore⟩⟩ := @storeBlock_cases P env b fees c
  · rw [hst] at range
    refine ⟨?_, hcache⟩
    rw [hcore, hc]
    exact .committed fees executed accumulated wallet range commits
  · rw [hst] at failed
    refine ⟨?_, hcache⟩
    rw [hcore, hc]
    exact .dropped wallet failed

/-- An import changes the core in one of the ways of `Imports` and leaves the candidates. -/
theorem importVerifiedBlockNoCommit_imports {P cfg env b} (c : Chain) :
    Imports P cfg env b c.core (importVerifiedBlockNoCommit P cfg env b c).2.core ∧
      (importVerifiedBlockNoCommit P cfg env b c).2.blockCandidates = c.blockCandidates := by
  simp only [importVerifiedBlockNoCommit, Action.bind_apply, Action.lift_apply, Action.get_apply,
    Action.ite_apply]
  cases executed : env.getBlockAndReceipts b.message.executionPayload.blockHash with
  | error e => exact ⟨.unchanged, rfl⟩
  | ok execution =>
    obtain ⟨executionBlock, executionReceipts⟩ := execution
    simp only
    cases hfees : accumulateFees P c.storage b executionBlock executionReceipts with
    | error e => exact ⟨.unchanged, rfl⟩
    | ok feesOps =>
      obtain ⟨fees, rfl⟩ := accumulateFees_ok hfees
      simp only
      by_cases hv : cfg.isValidator = true
      · obtain ⟨r, w, c₁, e, e', hcore, hcache⟩ := @importPegs_wallet P cfg env b c
        have wallet : importWallet P cfg env b.message c.core.bitcoinWallet = (r, w) := by
          rw [importWallet, if_pos hv]
          exact e'
        simp only [if_pos hv, e]
        cases r with
        | error f => exact ⟨by rw [hcore]; exact .stopped wallet, hcache⟩
        | ok =>
          obtain ⟨himp, hcache'⟩ :=
            storeBlock_imports (k := c.core) fees executed hfees wallet hcore
          exact ⟨himp, hcache'.trans hcache⟩
      · have wallet : importWallet P cfg env b.message c.core.bitcoinWallet =
            (.ok (), c.bitcoinWallet) := by
          rw [importWallet, if_neg hv]
          rfl
        simp only [if_neg hv]
        exact storeBlock_imports (k := c.core) fees executed hfees wallet rfl

/-- An import does nothing if the execution layer refuses the payload. -/
lemma importVerifiedBlock_cases {P cfg env b} (c : Chain) :
    (importVerifiedBlock P cfg env b c).2 = c ∨
    env.commitBlock b.message.executionPayload = .ok () ∧
      importVerifiedBlock P cfg env b c = importVerifiedBlockNoCommit P cfg env b c := by
  simp only [importVerifiedBlock, Action.bind_apply, Action.lift_apply]
  cases env.commitBlock b.message.executionPayload with
  | error e => exact .inl rfl
  | ok => exact .inr ⟨rfl, rfl⟩

/-- An import changes the core in one of the ways of `Imported` and leaves the candidates. -/
theorem importVerifiedBlock_imported {P cfg env b} (c : Chain) :
    Imported P cfg env b c.core (importVerifiedBlock P cfg env b c).2.core ∧
      (importVerifiedBlock P cfg env b c).2.blockCandidates = c.blockCandidates := by
  obtain e | ⟨_, e⟩ := @importVerifiedBlock_cases P cfg env b c
  · rw [e]
    exact ⟨.unchanged, rfl⟩
  · rw [e]
    obtain ⟨himp, hcache⟩ := importVerifiedBlockNoCommit_imports (P := P) c
    exact ⟨himp.imported, hcache⟩

/-- If the wallet remembers what the imported blocks use, and a block uses none of it, then
different imports still use different things after its import, and the wallet remembers them. -/
lemma Imported.usesOnce {α : Type} {uses : ConsensusBlock → List α}
    {Remembers : List α → UtxoManager → Prop} {P cfg env b k k'} (h : Imported P cfg env b k k')
    (left : ∀ {l l' w}, Remembers (l ++ l') w → Remembers l w)
    (wallet : Action.Triple (Remembers (k.imported.flatMap fun i => uses i.block.message))
      (importWallet P cfg env b.message)
      (fun _ => Remembers ((k.imported.flatMap fun i => uses i.block.message) ++ uses b.message))
      (Remembers (k.imported.flatMap fun i => uses i.block.message)))
    (disjoint : k.imported.Pairwise fun i j =>
      List.Disjoint (uses i.block.message) (uses j.block.message))
    (remembers : Remembers (k.imported.flatMap fun i => uses i.block.message) k.bitcoinWallet)
    (fresh : ∀ x ∈ k.imported.flatMap fun i => uses i.block.message, x ∉ uses b.message) :
    (k'.imported.Pairwise fun i j => List.Disjoint (uses i.block.message) (uses j.block.message)) ∧
      Remembers (k'.imported.flatMap fun i => uses i.block.message) k'.bitcoinWallet := by
  have hwallet := wallet k.bitcoinWallet remembers
  cases h with
  | unchanged => exact ⟨disjoint, remembers⟩
  | stopped e =>
    rw [e] at hwallet
    exact ⟨disjoint, hwallet⟩
  | dropped e =>
    rw [e] at hwallet
    exact ⟨disjoint, left hwallet⟩
  | committed fees e range =>
    rw [e] at hwallet
    refine ⟨List.pairwise_append.mpr ⟨disjoint, List.pairwise_singleton _ _, ?_⟩, ?_⟩
    · intro i mem j hj
      cases List.mem_singleton.mp hj
      exact fun x hi hb => fresh x (List.mem_flatMap.mpr ⟨i, mem, hi⟩) hb
    · simpa [Core.commit, Core.withHead] using hwallet

/-- An import whose parts all succeed is committed. -/
lemma importVerifiedBlock_commits {P cfg env b} {execution fees w}
    (hpayload : env.commitBlock b.message.executionPayload = .ok ())
    (hexec : env.getBlockAndReceipts b.message.executionPayload.blockHash = .ok execution)
    (hfees : accumulateFees P c.storage b execution.1 execution.2 =
      .ok [.putBlockFees (b.canonicalRoot P) fees])
    (wallet : importWallet P cfg env b.message c.bitcoinWallet = (.ok (), w))
    (range : RangeStored c.storage b.message) (hcommit : env.commitOps = true) :
    (importVerifiedBlock P cfg env b c).2.core =
      Core.commit P env b fees { c.core with bitcoinWallet := w } := by
  simp only [importVerifiedBlock, importVerifiedBlockNoCommit, Action.bind_apply, Action.lift_apply,
    Action.get_apply, Action.ite_apply, hpayload, hexec, hfees]
  by_cases hv : cfg.isValidator = true
  · obtain ⟨r, w', c₁, e, e', hcore, _⟩ := @importPegs_wallet P cfg env b c
    rw [importWallet, if_pos hv, e'] at wallet
    cases wallet
    have hst : c₁.storage = c.storage := congrArg Core.storage hcore
    simp only [if_pos hv, e]
    obtain ⟨_, ⟨_, _, h⟩ | ⟨h, _⟩⟩ := @storeBlock_cases P env b fees c₁
    · rw [h, hcore]
    · exact absurd ⟨hst ▸ range, hcommit⟩ h
  · rw [importWallet, if_neg hv] at wallet
    cases wallet
    simp only [if_neg hv]
    obtain ⟨_, ⟨_, _, h⟩ | ⟨h, _⟩⟩ := @storeBlock_cases P env b fees c
    · exact h
    · exact absurd ⟨range, hcommit⟩ h

lemma processBlock_snd {P cfg env b r} {c c₁ c₂ : Chain}
    (hvalid : validateBlock P cfg env b c = (.ok (), c₁))
    (hstore : storeCandidate P cfg b c₁ = (.ok r, c₂)) :
    (processBlock P cfg env b c).2 = (maybeAcceptBlock P cfg env (b.canonicalRoot P) c₂).2 := by
  simp only [processBlock, Action.bind_apply, hvalid, hstore]
  rcases maybeAcceptBlock P cfg env (b.canonicalRoot P) c₂ with ⟨_ | _, _⟩ <;> rfl

lemma processBlock_fst {P cfg env b r} {c c₁ c₂ : Chain} {f : Failure}
    (hvalid : validateBlock P cfg env b c = (.ok (), c₁))
    (hstore : storeCandidate P cfg b c₁ = (.ok r, c₂)) :
    (processBlock P cfg env b c).1 = .error f ↔
      (maybeAcceptBlock P cfg env (b.canonicalRoot P) c₂).1 = .error f := by
  simp only [processBlock, Action.bind_apply, hvalid, hstore]
  rcases maybeAcceptBlock P cfg env (b.canonicalRoot P) c₂ with ⟨_ | _, _⟩
  · simp only [Except.error.injEq]
  · exact iff_of_false (by rintro ⟨⟩) (by rintro ⟨⟩)

/-- The approval that processing a block returns is the node's own, of a valid block. -/
lemma processBlock_approval {P cfg env b approval}
    (e : (processBlock P cfg env b c).1 = .ok (some approval)) :
    (validateBlock P cfg env b c).1 = .ok () ∧
      ∃ authority, cfg.aura.authority = some authority ∧ approval = b.message.sign P authority := by
  obtain ⟨_, c₁, hvalid, e⟩ := Action.bind_eq_ok e
  obtain ⟨r, c₂, hstore, e⟩ := Action.bind_eq_ok e
  obtain ⟨_, c₃, _, e⟩ := Action.bind_eq_ok e
  cases e
  refine ⟨by rw [hvalid], ?_⟩
  obtain ⟨_, _, _, e⟩ := Action.bind_eq_ok (congrArg Prod.fst hstore)
  obtain ⟨_, _, _, e⟩ := Action.bind_eq_ok e
  cases ha : cfg.aura.authority with
  | none => simp [ha] at e
  | some authority =>
    simp only [ha] at e
    obtain ⟨_, _, _, e⟩ := Action.bind_eq_ok e
    cases e
    exact ⟨authority, rfl, rfl⟩

/-- What holds after a block was processed: it was rejected, or it was stored as a candidate and the
candidate possibly accepted. -/
lemma processBlock_keeps {P cfg env b} {J : Chain → Prop}
    (rejected : ∀ missing, FetchedFor P cfg env b c.bitcoinWallet missing →
      J (c.registerUtxos missing)) (accepted : ∀ missing, Validated P cfg env b c.core missing →
      validateBlock P cfg env b c = (.ok (), c.registerUtxos missing) →
      ∃ I : BlockCandidateCache → Prop, I c.blockCandidates ∧
        Action.Keeps (Stage (c.core.registerUtxos missing) I) (storeCandidate P cfg b) ∧
        ∀ c', Stage (c.core.registerUtxos missing) I c' →
          J c' ∧ J (maybeAcceptBlock P cfg env (b.canonicalRoot P) c').2) :
    J (processBlock P cfg env b c).2 := by
  obtain ⟨missing, valid, e⟩ | ⟨f, missing, fetched, e⟩ := @validateBlock_cases P cfg env b c
  · obtain ⟨I, hI, stores, kept⟩ := accepted missing valid e
    have stored := stores (c.registerUtxos missing) ⟨rfl, hI⟩
    rcases hs : storeCandidate P cfg b (c.registerUtxos missing) with ⟨_ | r, c'⟩
    · rw [hs] at stored
      simp only [processBlock, Action.bind_apply, e, hs]
      exact (kept c' stored).1
    · rw [hs] at stored
      rw [processBlock_snd e hs]
      exact (kept c' stored).2
  · simp only [processBlock, Action.bind_apply, e]
    exact rejected missing fetched

/-- The stages of `process_approval`. -/
lemma processApproval_keeps {P cfg env} {a : ApproveBlock} {J : Chain → Prop}
    (init : I c.blockCandidates) (add : ∀ {c isSyncing}, I c →
      I (BlockCandidateCache.addApproval P a cfg.aura.authorities isSyncing c).2)
    (kept : ∀ c', Stage c.core I c' → J c' ∧ J (maybeAcceptBlock P cfg env a.blockHash c').2) :
    J (processApproval P cfg env a c).2 := by
  have stored := ChainM.onCandidates_keeps (I := I) (k := c.core)
    (x := BlockCandidateCache.addApproval P a cfg.aura.authorities c.syncStatus.isSynced)
    (fun _ h => add h) c ⟨rfl, init⟩
  simp only [processApproval, Action.bind_apply, Action.get_apply]
  rcases hs : ChainM.onCandidates (BlockCandidateCache.addApproval P a cfg.aura.authorities
    c.syncStatus.isSynced) c with ⟨_ | r, c'⟩
  · rw [hs] at stored
    exact (kept c' stored).1
  · rw [hs] at stored
    exact (kept c' stored).2

lemma maybeAcceptBlock_of_majority {P cfg env hash}
    (hb : c.blockCandidates.getBlock hash = some b)
    (hmajority : cfg.aura.majorityApproved P b = .ok true) :
    maybeAcceptBlock P cfg env hash c =
      importVerifiedBlock P cfg env b { c with blockCandidates := .empty } := by
  simp only [maybeAcceptBlock, Action.bind_apply, Action.get_apply, hb, Action.lift_apply,
    Action.ite_apply, hmajority, Action.modify_apply]
  rfl

/-! ## Runs -/

/-- What can happen to a node. -/
inductive Event where
  /-- a block arrives, from a peer or from the node's own slot worker -/
  | block (env : Env) (b : SignedConsensusBlock)
  /-- an approval arrives -/
  | approval (env : Env) (a : ApproveBlock)
  /-- another task writes the fields that neither validation nor import decides by -/
  | background (syncStatus : SyncStatus) (queuedPow : Option AuxPowHeader)
    (queuedPegins : Map Txid PegInInfo) (collector : BitcoinSignatureCollector)
  /-- the node stops and starts again on its store and its wallet -/
  | restart

/-- The node after an event. -/
def Event.apply (P : Primitives) (cfg : ChainConfig) : Event → Chain → Chain
  | .block env b, c => (processBlock P cfg env b c).2
  | .approval env a, c => (processApproval P cfg env a c).2
  | .background syncStatus queuedPow queuedPegins collector, c =>
    { c with syncStatus, queuedPow, queuedPegins, bitcoinSignatureCollector := collector }
  | .restart, c => { Chain.new c.storage c.bitcoinWallet with imported := c.imported }

/-- The events in which the environment satisfies `Q` and a block that arrives satisfies `A`. -/
def Event.Allowed (Q : Env → Prop) (A : Core → Env → SignedConsensusBlock → Prop) (c : Chain) :
    Event → Prop
  | .block env b => Q env ∧ A c.core env b
  | .approval env _ => Q env
  | .background .. => True
  | .restart => True

/-- `A` of the blocks that pass the checks of `process_block`. -/
def IfValid (P : Primitives) (cfg : ChainConfig) (A : Core → SignedConsensusBlock → Prop)
    (k : Core) (env : Env) (b : SignedConsensusBlock) : Prop :=
  ∀ missing, Validated P cfg env b k missing → A k b

/-- The runs of a node. -/
abbrev NodeRun (P : Primitives) (cfg : ChainConfig) (Q : Env → Prop)
    (A : Core → Env → SignedConsensusBlock → Prop) : Chain → Chain → Prop :=
  Run (Event.apply P cfg) (Event.Allowed Q A)

/-- A property `I` of the core and a property `M` of the cached messages that every step keeps. -/
structure Maintains (P : Primitives) (cfg : ChainConfig) (Q : Env → Prop)
    (A : Core → Env → SignedConsensusBlock → Prop) (I : Core → Prop)
    (M : Core → ConsensusBlock → Prop) : Prop where
  fetch : ∀ {k env b missing}, A k env b → I k → FetchedFor P cfg env b k.bitcoinWallet missing →
    I (k.registerUtxos missing) ∧ ∀ m, M k m → M (k.registerUtxos missing) m
  valid : ∀ {k env b missing}, A k env b → I k → Validated P cfg env b k missing →
    M (k.registerUtxos missing) b.message
  imports : ∀ {k env b k'}, Q env → I k → M k b.message →
    env.commitBlock b.message.executionPayload = .ok () → Imports P cfg env b k k' → I k'
  restart : ∀ {k}, I k → I k.restart

namespace Maintains

variable {P : Primitives} {cfg : ChainConfig} {Q : Env → Prop}
  {A : Core → Env → SignedConsensusBlock → Prop} {I : Core → Prop}
  {M : Core → ConsensusBlock → Prop}

/-- The two properties of a node. -/
def Inv (I : Core → Prop) (M : Core → ConsensusBlock → Prop) (c : Chain) : Prop :=
  I c.core ∧ c.blockCandidates.Holds (M c.core)

lemma inv_of_stage {k c} (hk : I k) (h : Stage k (·.Holds (M k)) c) : Inv I M c := by
  obtain ⟨rfl, hc⟩ := h
  exact ⟨hk, hc⟩

/-- An acceptance keeps the properties: it clears the cache before it imports a cached block. -/
lemma maybeAccept (U : Maintains P cfg Q A I M) {env hash c} (hq : Q env) (h : Inv I M c) :
    Inv I M (maybeAcceptBlock P cfg env hash c).2 := by
  obtain e | ⟨b, hb, -, e⟩ := maybeAcceptBlock_cases (P := P) c
  · rw [e]
    exact h
  · rw [e]
    have hm := h.2 b (BlockCandidateCache.getBlock_caches hb)
    obtain e | ⟨payload, e⟩ := @importVerifiedBlock_cases P cfg env b
      { c with blockCandidates := .empty }
    · rw [e]
      exact ⟨h.1, BlockCandidateCache.holds_empty⟩
    · rw [e]
      obtain ⟨himp, hcache⟩ := @importVerifiedBlockNoCommit_imports P cfg env b
        { c with blockCandidates := .empty }
      refine ⟨U.imports hq h.1 hm payload himp, ?_⟩
      rw [hcache]
      exact BlockCandidateCache.holds_empty

/-- A block keeps the properties. -/
lemma block (U : Maintains P cfg Q A I M) {env b c} (hq : Q env) (ha : A c.core env b)
    (h : Inv I M c) : Inv I M (processBlock P cfg env b c).2 := by
  refine processBlock_keeps (fun missing fetched => ?_) fun missing valid _ => ?_
  · obtain ⟨hI, hM⟩ := U.fetch ha h.1 fetched
    exact ⟨hI, fun blk hblk => hM _ (h.2 blk hblk)⟩
  · obtain ⟨hI, hM⟩ := U.fetch ha h.1 valid.fetched
    refine ⟨(·.Holds (M (c.core.registerUtxos missing))), fun blk hblk => hM _ (h.2 blk hblk),
      storeCandidate_keeps (fun hc => hc.insert (U.valid ha h.1 valid)) fun _ hc => hc.addApproval,
      fun c' stage => ?_⟩
    exact ⟨inv_of_stage hI stage, U.maybeAccept hq (inv_of_stage hI stage)⟩

lemma approval (U : Maintains P cfg Q A I M) {env a c} (hq : Q env) (h : Inv I M c) :
    Inv I M (processApproval P cfg env a c).2 :=
  processApproval_keeps h.2 (fun h => h.addApproval) fun _ stage =>
    ⟨inv_of_stage h.1 stage, U.maybeAccept hq (inv_of_stage h.1 stage)⟩

lemma event (U : Maintains P cfg Q A I M) {e : Event} {c} (ok : e.Allowed Q A c) (h : Inv I M c) :
    Inv I M (e.apply P cfg c) := by
  cases e with
  | block env b => exact U.block ok.1 ok.2 h
  | approval env a => exact U.approval ok h
  | background => exact h
  | restart => exact ⟨U.restart h.1, BlockCandidateCache.holds_empty⟩

/-- Both properties hold after every run that starts with an empty cache. -/
theorem run_inv (U : Maintains P cfg Q A I M) {c c' : Chain} (r : NodeRun P cfg Q A c c')
    (init : I c.core) (empty : c.blockCandidates = .empty) : Inv I M c' := by
  have start : Inv I M c := ⟨init, by rw [empty]; exact BlockCandidateCache.holds_empty⟩
  exact r.invariant start fun c e h ok => U.event ok h

/-- The property of the core holds after every run that starts with an empty cache. -/
theorem run (U : Maintains P cfg Q A I M) {c c' : Chain} (r : NodeRun P cfg Q A c c')
    (init : I c.core) (empty : c.blockCandidates = .empty) : I c'.core :=
  (U.run_inv r init empty).1

end Maintains

/-- As `Maintains`, for properties that do not depend on what the environment answered. -/
structure Upholds (P : Primitives) (cfg : ChainConfig) (Q : Env → Prop)
    (A : Core → Env → SignedConsensusBlock → Prop) (I : Core → Prop)
    (M : Core → ConsensusBlock → Prop) : Prop where
  fetch : ∀ {k env b missing}, A k env b → I k → FetchedFor P cfg env b k.bitcoinWallet missing →
    I (k.registerUtxos missing) ∧ ∀ m, M k m → M (k.registerUtxos missing) m
  valid : ∀ {k env b missing}, A k env b → I k → Validated P cfg env b k missing →
    M (k.registerUtxos missing) b.message
  imports : ∀ {k env b k'}, Q env → I k → M k b.message → Imported P cfg env b k k' → I k'
  restart : ∀ {k}, I k → I k.restart

/-- What an import does is among the cases of `Imported`. -/
lemma Upholds.maintains {P cfg Q A I M} (U : Upholds P cfg Q A I M) : Maintains P cfg Q A I M :=
  ⟨U.fetch, U.valid, fun hq hI hM _ h => U.imports hq hI hM h.imported, U.restart⟩

/-- The property of the core holds after every run that starts with an empty cache. -/
theorem Upholds.run {P cfg Q A I M} (U : Upholds P cfg Q A I M) {c c' : Chain}
    (r : NodeRun P cfg Q A c c') (init : I c.core) (empty : c.blockCandidates = .empty) :
    I c'.core :=
  U.maintains.run r init empty

/-- The store changes with an import only. -/
lemma Event.apply_storage {P cfg} (e : Event) {c : Chain}
    (same : (e.apply P cfg c).imported.length = c.imported.length) :
    (e.apply P cfg c).storage = c.storage := by
  have U : Upholds P cfg (fun _ => True) (fun _ _ _ => True)
      (fun k => k.storage = c.storage ∧ k.imported.length = c.imported.length ∨
        c.imported.length < k.imported.length) (fun _ _ => True) := by
    refine ⟨fun _ h _ => ⟨h, fun _ _ => trivial⟩, fun _ _ _ => trivial, ?_, fun h => h⟩
    intro k env b k' _ h _ himp
    cases himp with
    | unchanged => exact h
    | stopped => exact h
    | dropped => exact h
    | committed =>
      right
      rw [Core.commit, List.length_append, List.length_singleton]
      rcases h with h | h
      · exact Nat.lt_succ_of_le h.2.ge
      · exact Nat.lt_succ_of_lt h
  have ok : e.Allowed (fun _ => True) (fun _ _ _ => True) c := by
    cases e with
    | block => exact ⟨trivial, trivial⟩
    | approval => trivial
    | background => trivial
    | restart => trivial
  obtain ⟨h, _⟩ | h := (U.maintains.event ok ⟨.inl ⟨rfl, rfl⟩, fun _ _ => trivial⟩).1
  · exact h
  · exact absurd same h.ne'

/-! ## Closed instances -/

/-- A lone validator after blocks arrived. -/
def Chain.toyAfter (blocks : List SignedConsensusBlock) : Chain :=
  blocks.foldl (fun c b => (Event.block .toy b).apply .toy (.toy 1 0) c) (Chain.new .toy .empty)

lemma Chain.toyAfter_nil {Q A} :
    NodeRun .toy (.toy 1 0) Q A (Chain.new .toy .empty) (Chain.toyAfter []) :=
  .refl

lemma Chain.toyAfter_snoc {Q A blocks b}
    (run : NodeRun .toy (.toy 1 0) Q A (Chain.new .toy .empty) (Chain.toyAfter blocks))
    (henv : Q .toy) (hb : A (Chain.toyAfter blocks).core .toy b) :
    NodeRun .toy (.toy 1 0) Q A (Chain.new .toy .empty) (Chain.toyAfter (blocks ++ [b])) := by
  rw [Chain.toyAfter, List.foldl_append]
  exact .snoc run (.block .toy b) ⟨henv, hb⟩

end Alys
