import Alys.Chain.Genesis

/-!
# Rollbacks

Model of `find_pow_block_for_rollback` and `rollback_head` in `app/src/chain.rs`. A rollback moves
the head to the block of a height and the reference to the latest AuxPow to the nearest block with a
header below it. It leaves everything else: the blocks above the new head stay stored, the wallet,
the queues and the block hash cache are not touched.

Two kinds of runs are considered. Those of `ReorgRun` consist of accepted imports and rollbacks. An
accepted import is the path of a block that arrives with the approvals of a majority, as blocks do
while a node is syncing: it is checked and imported in one step (`processBlock_eq_acceptBlock`). In
those of `ForkRun` a node takes any steps and rolls back in between; an invariant of the core and
the candidates of such runs is derived by `MaintainsForks.run`.
-/

namespace Alys
open Lib

namespace Storage

/-- `BlockByHeight::get_block_by_height`. -/
def getBlockByHeight (s : Storage) (height : Nat) : Option SignedConsensusBlock := do
  let hash ← s.blockByHeight.lookup height
  s.getBlock hash

/-- The loop of `find_pow_block_for_rollback`. -/
def powBlockLoop (s : Storage) :
    Nat → SignedConsensusBlock → Except Failure (Option SignedConsensusBlock)
  | 0, _ => .error .diverge
  | fuel + 1, currentBlock =>
    if currentBlock.message.auxpowHeader.isSome then
      .ok (some currentBlock)
    else if currentBlock.message.parentHash = Hash256.zero then
      .ok none
    else
      match s.getBlock currentBlock.message.parentHash with
      | none => .error (.error .missingParent)
      | some parent => s.powBlockLoop fuel parent

/-- `Chain::find_pow_block_for_rollback`. -/
def findPowBlockForRollback (s : Storage) (targetHeight : Nat) :
    Except Failure (Option SignedConsensusBlock) := do
  let targetBlock ← okOr (s.getBlockByHeight targetHeight) (.error .missingBlock)
  s.powBlockLoop s.fuel targetBlock

end Storage

/-- `Chain::rollback_head`. The head in memory moves before the commit. -/
def rollbackHead (P : Primitives) (env : Env) (targetHeight : Nat) : ChainM Unit := do
  let c ← Action.get
  let targetBlock ←
    Action.lift (okOr (c.storage.getBlockByHeight targetHeight) (.error .missingBlock))
  let powBlockForRollback ← Action.lift (c.storage.findPowBlockForRollback targetHeight)
  let updateOps ← updateHeadRefOps (targetBlock.blockRef P) true
  let powBlockOps :=
    match powBlockForRollback with
    | some powBlock => [.putLatestPowBlock (powBlock.blockRef P)]
    | none => []
  if env.commitOps then
    Action.modify fun c => { c with storage := c.storage.applyOps (updateOps ++ powBlockOps) }
  else
    Action.fail (.error .storageError)

/-! ## What a rollback does -/

/-- The store after a rollback to a block. -/
def Storage.rollback (P : Primitives) (s : Storage) (target : SignedConsensusBlock)
    (powBlock : Option SignedConsensusBlock) : Storage :=
  { s with
    head := some (target.blockRef P)
    latestPowBlock := match powBlock with
      | some b => some (b.blockRef P)
      | none => s.latestPowBlock }

/-- A rollback fails without an effect, or moves the head in memory, and the stored head with the
reference to the latest AuxPow if the disk answers. -/
lemma rollbackHead_cases {P env height} (c : Chain) :
    (rollbackHead P env height c).2 = c ∨
    ∃ target powBlock, c.storage.getBlockByHeight height = some target ∧
      c.storage.powBlockLoop c.storage.fuel target = .ok powBlock ∧
      (rollbackHead P env height c).2 =
        { c with
          head := some (target.blockRef P)
          storage :=
            if env.commitOps then c.storage.rollback P target powBlock else c.storage } := by
  simp only [rollbackHead, Action.bind_apply, Action.get_apply, Action.lift_apply]
  cases htarget : c.storage.getBlockByHeight height with
  | none => exact .inl rfl
  | some target =>
    simp only [okOr, Storage.findPowBlockForRollback, htarget, bind, Except.bind]
    cases hpow : c.storage.powBlockLoop c.storage.fuel target with
    | error e => exact .inl rfl
    | ok powBlock =>
      refine .inr ⟨target, powBlock, rfl, hpow, ?_⟩
      simp only [updateHeadRefOps, Action.bind_apply, Action.get_apply, Action.ite_apply,
        Bool.not_true, Bool.false_eq_true, and_false, if_false, Action.modify_apply,
        Action.pure_apply]
      cases env.commitOps with
      | false => rfl
      | true => cases powBlock <;> rfl

/-! ## Accepted imports -/

/-- The checks and the import of a block. -/
def acceptBlock (P : Primitives) (cfg : ChainConfig) (env : Env) (b : SignedConsensusBlock) :
    ChainM Unit := do
  validateBlock P cfg env b
  importVerifiedBlock P cfg env b

/-- A node that signs nothing and has no candidates accepts a block with the approvals of a
majority. -/
lemma processBlock_eq_acceptBlock {P cfg env} {b : SignedConsensusBlock} {c : Chain}
    (hcache : c.blockCandidates = .empty) (hauth : cfg.aura.authority = none)
    (hmajority : cfg.aura.majorityApproved P b = .ok true) :
    (processBlock P cfg env b c).2 = (acceptBlock P cfg env b c).2 := by
  obtain ⟨missing, _, e⟩ | ⟨f, missing, _, e⟩ := @validateBlock_cases P cfg env b c
  · have hstore : storeCandidate P cfg b (c.registerUtxos missing) = (.ok none,
        { c.registerUtxos missing with
          blockCandidates :=
            (BlockCandidateCache.insert P b c.syncStatus.isSynced .empty).2 }) := by
      simp only [storeCandidate, Action.bind_apply, Action.get_apply, hauth]
      simp only [Chain.registerUtxos, ChainM.onCandidates, Action.zoom, hcache]
      rfl
    rw [processBlock_snd e hstore, maybeAcceptBlock_of_majority
      (BlockCandidateCache.getBlock_insert_empty c.syncStatus.isSynced) hmajority]
    simp only [acceptBlock, Action.bind_apply, e, Chain.registerUtxos, ← hcache]
  · simp only [processBlock, acceptBlock, Action.bind_apply, e]

/-- An accepted import fails with the outputs of the block's proposal registered, or imports the
block. -/
lemma acceptBlock_cases {P cfg env b} (c : Chain) :
    (∃ missing, FetchedFor P cfg env b c.bitcoinWallet missing ∧
      (acceptBlock P cfg env b c).2 = c.registerUtxos missing) ∨
    ∃ missing, Validated P cfg env b c.core missing ∧
      env.commitBlock b.message.executionPayload = .ok () ∧
      acceptBlock P cfg env b c =
        importVerifiedBlockNoCommit P cfg env b (c.registerUtxos missing) := by
  simp only [acceptBlock, Action.bind_apply]
  obtain ⟨missing, valid, e⟩ | ⟨f, missing, fetched, e⟩ := @validateBlock_cases P cfg env b c
  · simp only [e]
    obtain e' | ⟨payload, e'⟩ := @importVerifiedBlock_cases P cfg env b (c.registerUtxos missing)
    · exact .inl ⟨missing, valid.fetched, e'⟩
    · exact .inr ⟨missing, valid, payload, e'⟩
  · simp only [e]
    exact .inl ⟨missing, fetched, rfl⟩

/-- An accepted import leaves the store and the imports, and the head in memory if the disk answers,
or it stores a valid block and makes it the head. -/
lemma acceptBlock_stores {P cfg env b} (c : Chain) :
    let c' := (acceptBlock P cfg env b c).2
    c'.storage = c.storage ∧ c'.imported = c.imported ∧ (env.commitOps = true → c'.head = c.head) ∨
    ∃ missing fees execution, Validated P cfg env b c.core missing ∧
      env.commitBlock b.message.executionPayload = .ok () ∧
      env.getBlockAndReceipts b.message.executionPayload.blockHash = .ok execution ∧
      c'.storage = c.storage.extend P b fees true ∧ c'.head = some (b.blockRef P) ∧
      c'.imported = c.imported ++ [⟨c.storage, b, env⟩] := by
  intro c'
  obtain ⟨missing, _, e⟩ | ⟨missing, valid, payload, e⟩ := @acceptBlock_cases P cfg env b c
  · have e : c' = c.registerUtxos missing := e
    rw [e]
    exact .inl ⟨rfl, rfl, fun _ => rfl⟩
  · have himp := (@importVerifiedBlockNoCommit_imports P cfg env b (c.registerUtxos missing)).1
    rw [← e] at himp
    change Imports P cfg env b (c.core.registerUtxos missing) c'.core at himp
    have range : RangeStored c.storage b.message := checkAuxPow_rangeStored valid.auxPow
    have above := (checkParent_eq_ok_iff.mp valid.parent).2.1
    change c'.core.storage = _ ∧ c'.core.imported = _ ∧ (_ → c'.core.head = _) ∨
      ∃ missing fees execution, _ ∧ _ ∧ _ ∧ c'.core.storage = _ ∧ c'.core.head = _ ∧
        c'.core.imported = _
    generalize c'.core = k' at himp
    cases himp with
    | unchanged => exact .inl ⟨rfl, rfl, fun _ => rfl⟩
    | stopped => exact .inl ⟨rfl, rfl, fun _ => rfl⟩
    | dropped _ failed => exact .inl ⟨rfl, rfl, fun commits => absurd ⟨range, commits⟩ failed⟩
    | @committed _ execution fees executed =>
      have hadv : c.core.advances b = true :=
        Core.advances_iff.mpr fun head mem => (above head mem).le
      exact .inr ⟨missing, fees, execution, valid, payload, executed, Core.commit_storage above,
        if_pos hadv, rfl⟩

/-! ## Runs -/

/-- An accepted import or a rollback. -/
inductive Reorg where
  | accept (env : Env) (b : SignedConsensusBlock)
  | rollback (env : Env) (height : Nat)

/-- The node after an accepted import or a rollback. -/
def Reorg.apply (P : Primitives) (cfg : ChainConfig) : Reorg → Chain → Chain
  | .accept env b, c => (acceptBlock P cfg env b c).2
  | .rollback env height, c => (rollbackHead P env height c).2

/-- The imports that satisfy `A` and the rollbacks that satisfy `R`. -/
def Reorg.Allowed (A : Chain → Env → SignedConsensusBlock → Prop) (R : Chain → Env → Nat → Prop)
    (c : Chain) : Reorg → Prop
  | .accept env b => A c env b
  | .rollback env height => R c env height

/-- The runs of accepted imports and rollbacks. -/
abbrev ReorgRun (P : Primitives) (cfg : ChainConfig) (A : Chain → Env → SignedConsensusBlock → Prop)
    (R : Chain → Env → Nat → Prop) : Chain → Chain → Prop :=
  Run (Reorg.apply P cfg) (Reorg.Allowed A R)

/-! ## Nodes that roll back -/

/-- What can happen to a node, with the rollbacks. -/
inductive ForkEvent where
  | node (e : Event)
  | rollback (env : Env) (height : Nat)

def ForkEvent.apply (P : Primitives) (cfg : ChainConfig) : ForkEvent → Chain → Chain
  | .node e, c => e.apply P cfg c
  | .rollback env height, c => (rollbackHead P env height c).2

/-- As `Event.Allowed`, with rollbacks to any height. -/
def ForkEvent.Allowed (Q : Env → Prop) (A : Core → Env → SignedConsensusBlock → Prop) (c : Chain) :
    ForkEvent → Prop
  | .node e => e.Allowed Q A c
  | .rollback env _ => Q env

/-- The runs of a node that also rolls back. -/
abbrev ForkRun (P : Primitives) (cfg : ChainConfig) (Q : Env → Prop)
    (A : Core → Env → SignedConsensusBlock → Prop) : Chain → Chain → Prop :=
  Run (ForkEvent.apply P cfg) (ForkEvent.Allowed Q A)

/-- The core after a rollback to a block. -/
def Core.rollback (P : Primitives) (env : Env) (target : SignedConsensusBlock)
    (powBlock : Option SignedConsensusBlock) (k : Core) : Core :=
  { k with
    head := some (target.blockRef P)
    storage := if env.commitOps then k.storage.rollback P target powBlock else k.storage }

/-- As `Maintains`, with the rollbacks: they leave the candidates. -/
structure MaintainsForks (P : Primitives) (cfg : ChainConfig) (Q : Env → Prop)
    (A : Core → Env → SignedConsensusBlock → Prop) (I : Core → Prop)
    (M : Core → ConsensusBlock → Prop) : Prop where
  node : Maintains P cfg Q A I M
  rollback : ∀ {k env height target powBlock}, Q env → I k →
    k.storage.getBlockByHeight height = some target →
    k.storage.powBlockLoop k.storage.fuel target = .ok powBlock →
    I (k.rollback P env target powBlock) ∧
      ∀ m, M k m → M (k.rollback P env target powBlock) m

/-- The property of the core holds after every run that starts with an empty cache. -/
theorem MaintainsForks.run {P cfg Q A I M} (U : MaintainsForks P cfg Q A I M) {c c' : Chain}
    (r : ForkRun P cfg Q A c c') (init : I c.core) (empty : c.blockCandidates = .empty) :
    I c'.core := by
  have start : Maintains.Inv I M c := ⟨init, by rw [empty]; exact BlockCandidateCache.holds_empty⟩
  refine (r.invariant start fun c e h ok => ?_).1
  cases e with
  | node e => exact U.node.event ok h
  | rollback env height =>
    simp only [ForkEvent.apply]
    obtain e | ⟨target, powBlock, htarget, hpow, e⟩ := @rollbackHead_cases P env height c
    · rw [e]
      exact h
    · rw [e]
      obtain ⟨hI, hM⟩ := U.rollback ok h.1 htarget hpow
      exact ⟨hI, fun b cached => hM _ (h.2 b cached)⟩

end Alys
