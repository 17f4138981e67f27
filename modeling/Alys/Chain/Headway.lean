import Alys.Chain.Sync
import Alys.Chain.Walks

/-!
# What a failed sync costs

A call of `sync` that meets a block it cannot process rolls the head back to the block before the
head that its request was prepared on, and a producer whose execution layer lost the payload of the
head to the block before that. Each rollback costs one block, counted from the heads at which the
calls were prepared and not from the present one (`head_falls_by_rollbacks`).

Nothing is asked of the block that `sync` meets. A peer that answers every request with one stale
block moves the head back step by step, as far as it likes (`sync_walks_back`).
-/

namespace Alys
open Lib

/-! ## The height index -/

/-- Every block is stored under its root, and every entry of the height index leads to a block of
that number. -/
structure Storage.Indexed (P : Primitives) (s : Storage) : Prop where
  keyed : ∀ {h b}, s.getBlock h = some b → b.canonicalRoot P = h
  indexed : ∀ {height root}, s.blockByHeight.lookup height = some root →
    ∃ b, s.getBlock root = some b ∧ b.number = height

namespace Storage.Indexed

variable {P : Primitives} {s : Storage}

lemma number (h : s.Indexed P) {height : Nat} {b : SignedConsensusBlock}
    (e : s.getBlockByHeight height = some b) : b.number = height := by
  obtain ⟨root, hroot, hb⟩ := Option.bind_eq_some_iff.mp e
  obtain ⟨b', hb', number⟩ := h.indexed hroot
  cases hb.symm.trans hb'
  exact number

lemma rollback (h : s.Indexed P) {target powBlock} : (s.rollback P target powBlock).Indexed P :=
  ⟨h.keyed, h.indexed⟩

/-- A block that is replaced has the root, and so the number, of the one that replaces it. -/
lemma extend (h : s.Indexed P) (hP : RootsSound P) (b : SignedConsensusBlock) (fees : Nat)
    (advances : Bool) : (s.extend P b fees advances).Indexed P where
  keyed := by
    intro root b' e
    rcases lookup_insert_eq_some.mp e with ⟨rfl, rfl⟩ | ⟨_, e⟩
    · rfl
    · exact h.keyed e
  indexed := by
    intro height root e
    rcases lookup_insert_eq_some.mp e with ⟨rfl, rfl⟩ | ⟨_, e⟩
    · exact ⟨b, Finmap.lookup_insert _, rfl⟩
    · obtain ⟨b', hb', number⟩ := h.indexed e
      by_cases hroot : root = b.canonicalRoot P
      · subst hroot
        exact ⟨b, Finmap.lookup_insert _, (hP.height (h.keyed hb')).symm.trans number⟩
      · exact ⟨b', (Finmap.lookup_insert_of_ne _ hroot).trans hb', number⟩

end Storage.Indexed

/-! ## The head in memory -/

/-- A property of the core that imports keep. -/
structure Core.Stable (P : Primitives) (cfg : ChainConfig) (I : Core → Prop) : Prop where
  fetch : ∀ {k missing}, I k → I (k.registerUtxos missing)
  imports : ∀ {k env b k'}, I k → Imported P cfg env b k k' → I k'

namespace Core.Stable

variable {P : Primitives} {cfg : ChainConfig} {I : Core → Prop} {c : Chain}

lemma maybeAccept (U : Core.Stable P cfg I) {env hash} (h : I c.core) :
    I (maybeAcceptBlock P cfg env hash c).2.core := by
  obtain e | ⟨b, _, _, e⟩ := maybeAcceptBlock_cases (P := P) c
  · rw [e]
    exact h
  · rw [e]
    exact U.imports h (importVerifiedBlock_imported (P := P) { c with blockCandidates := .empty }).1

lemma block (U : Core.Stable P cfg I) {env b} (h : I c.core) :
    I (processBlock P cfg env b c).2.core := by
  refine processBlock_keeps (J := fun c => I c.core) (fun _ _ => U.fetch h) fun missing _ _ => ?_
  refine ⟨fun _ => True, trivial, storeCandidate_keeps (fun _ => trivial) fun _ _ => trivial, ?_⟩
  rintro c' ⟨hcore, _⟩
  have h' : I c'.core := hcore ▸ U.fetch h
  exact ⟨h', U.maybeAccept h'⟩

lemma approval (U : Core.Stable P cfg I) {env a} (h : I c.core) :
    I (processApproval P cfg env a c).2.core := by
  refine processApproval_keeps (J := fun c => I c.core) (I := fun _ => True) trivial
    (fun _ => trivial) ?_
  rintro c' ⟨hcore, _⟩
  have h' : I c'.core := hcore ▸ h
  exact ⟨h', U.maybeAccept h'⟩

/-- Every event but a restart keeps the property. -/
lemma event (U : Core.Stable P cfg I) {e : Event} (he : e ≠ .restart) (h : I c.core) :
    I (e.apply P cfg c).core := by
  cases e with
  | block => exact U.block h
  | approval => exact U.approval h
  | background => exact h
  | restart => exact absurd rfl he

end Core.Stable

/-- The index is right and the head in memory names a block that is not below a height. The block
need not be stored: its commit may have failed. -/
structure Core.Above (P : Primitives) (low : Nat) (k : Core) : Prop where
  indexed : k.storage.Indexed P
  head : ∃ b : SignedConsensusBlock, k.head = some (b.blockRef P) ∧ low ≤ b.number

namespace Core.Above

variable {P : Primitives} {low : Nat} {k : Core} {c : Chain}

lemma wallet (h : k.Above P low) (w : UtxoManager) : { k with bitcoinWallet := w }.Above P low :=
  ⟨h.indexed, h.head⟩

lemma withHead (h : k.Above P low) (b : SignedConsensusBlock) : (k.withHead P b).Above P low where
  indexed := h.indexed
  head := by
    obtain ⟨b', hhead, hlow⟩ := h.head
    unfold Core.withHead
    split
    case isTrue hadv =>
      have hle : b'.number ≤ b.number := Core.advances_iff.mp hadv _ hhead
      exact ⟨b, rfl, hlow.trans hle⟩
    case isFalse => exact ⟨b', hhead, hlow⟩

lemma stable (hP : RootsSound P) (cfg : ChainConfig) : Core.Stable P cfg (Core.Above P low) where
  fetch h := ⟨h.indexed, h.head⟩
  imports h himp := by
    cases himp with
    | unchanged => exact h
    | @stopped _ w => exact h.wallet w
    | @dropped w => exact (h.wallet w).withHead _
    | @committed w fees => exact ⟨h.indexed.extend hP _ fees _, ((h.wallet w).withHead _).head⟩

/-- A rollback leaves the head, or moves it to the block of the given height. -/
lemma rollback (h : c.core.Above P low) {env : Env} {height : Nat} (hlow : low ≤ height + 1) :
    (rollbackHead P env height c).2.core.Above P (low - 1) := by
  obtain e | ⟨target, powBlock, htarget, _, e⟩ := @rollbackHead_cases P env height c
  · rw [e]
    obtain ⟨b, hhead, hle⟩ := h.head
    exact ⟨h.indexed, b, hhead, (Nat.sub_le low 1).trans hle⟩
  · rw [e]
    have hnumber : target.number = height := h.indexed.number htarget
    refine ⟨?_, target, rfl, by omega⟩
    show (if env.commitOps then _ else _ : Storage).Indexed P
    split
    · exact h.indexed.rollback
    · exact h.indexed

/-- The head of a producer is not below the height either. -/
lemma lostHead (h : c.core.Above P low) (hP : RootsSound P) {env : ProducerEnv}
    {prev : SignedConsensusBlock} (hlost : c.lostHead env = some prev) : low ≤ prev.number := by
  obtain ⟨_, head, hhead, hprev, _⟩ := Chain.lostHead_eq_some.mp hlost
  obtain ⟨b, hb, hlow⟩ := h.head
  cases hhead.symm.trans hb
  exact hlow.trans (hP.height (h.indexed.keyed hprev)).ge

end Core.Above

/-! ## Runs -/

/-- The rollbacks in a log. -/
def SyncMark.rollbacks (log : List SyncMark) : Nat := log.count .rolledBack

open SyncMark

/-- The head at which the request of a call was prepared. -/
def SyncTask.head? : SyncTask → Option Nat
  | .selectPeers head => some head
  | .checkBreaker head _ _ => some head
  | .sendRpc head _ _ _ _ => some head
  | .sleep head _ _ _ _ _ => some head
  | .recordSuccess head => some head
  | .recordFailure head _ => some head
  | .receive head _ => some head
  | .rollBack head => some head
  | _ => none

namespace SyncTask

variable {head h : Nat}

lemma head?_tryPeers {peers : List PeerId} (e : (tryPeers head peers).head? = some h) :
    h = head := by
  cases peers with
  | nil => cases e
  | cons => exact (Option.some.inj e).symm

lemma head?_retry {now attempt backoff : Nat} {peer : PeerId} {rest : List PeerId}
    (e : (retry now head peer rest attempt backoff).head? = some h) : h = head := by
  unfold retry at e
  split at e
  · exact (Option.some.inj e).symm
  · exact (Option.some.inj e).symm

lemma head?_processed {blocksProcessed : Nat} {r : Except Failure (Option IndividualApproval)}
    (e : (processed head blocksProcessed r).head? = some h) : h = head := by
  unfold processed at e
  split at e
  case h_1 => exact (Option.some.inj e).symm
  case h_2 => cases e
  case h_3 => cases e
  case h_4 =>
    split_ifs at e
    · exact (Option.some.inj e).symm
    · cases e
    · cases e
    · exact (Option.some.inj e).symm

end SyncTask

/-- A block that no node with a head accepts: it has a parent and the number of a genesis block. -/
structure SignedConsensusBlock.IsStale (b : SignedConsensusBlock) : Prop where
  parent : b.message.parentHash ≠ Hash256.zero
  number : b.number = 0

lemma SignedConsensusBlock.IsStale.processBlock_eq {b : SignedConsensusBlock} (hb : b.IsStale)
    (P : Primitives) (cfg : ChainConfig) (env : Env) {c : Chain} {head : BlockRef}
    (hhead : c.head = some head) :
    processBlock P cfg env b c = (.error (.error .invalidBlock), c) := by
  have hparent : checkParent P cfg c.storage c.head b = .error (.error .invalidBlock) := by
    have hbelow : b.number ≤ head.height := hb.number ▸ Nat.zero_le _
    simp only [checkParent, if_neg hb.parent, hhead, Option.any_some, decide_eq_true hbelow]
    rfl
  simp only [processBlock, validateBlock, Action.bind_apply, Action.get_apply, Action.lift_apply,
    hparent]

/-! ## A closed instance -/

/-- A block with a parent and the number of a genesis block. -/
def SignedConsensusBlock.toyStale : SignedConsensusBlock where
  message :=
    { (SignedConsensusBlock.toy 1 0).message with executionPayload := ⟨[], [], 0, 0, [], []⟩ }
  signature := (SignedConsensusBlock.toy 1 0).signature

lemma SignedConsensusBlock.toyStale_isStale : SignedConsensusBlock.toyStale.IsStale :=
  ⟨by decide, rfl⟩

/-- A validator with two blocks, the second of which finalizes the first. -/
def Chain.toyTwo : Chain := Chain.toyReorg (toyRolledBack.take 2)

lemma Chain.toyTwo_rooted : Rooted .toy List.length Chain.toyTwo.storage := by
  have ok : Env.toyNumbered.commitOps = true ∧ Env.toyNumbered.Numbers List.length :=
    ⟨rfl, Env.toyNumbered_numbers⟩
  have run : ReorgRun .toy (.toy 1 0) (fun _ env _ => env.commitOps = true ∧
      env.Numbers List.length) (fun _ env _ => env.commitOps = true) Chain.toyGenesis
      Chain.toyTwo :=
    .snoc (.snoc .refl (Reorg.accept .toyNumbered (.toyNumbered 1)) ok)
      (Reorg.accept .toyNumbered (.toyNumberedPow 2)) ok
  exact (run_rooted Primitives.toy_rootsSound rfl Chain.toyGenesis_eq run).1

lemma Chain.toyTwo_head : Chain.toyTwo.head = some ⟨toyRoot 2 0, 2⟩ := by decide

lemma Chain.toyTwo_index {n : Nat} (hn : n < 2) :
    ∃ b, Chain.toyTwo.storage.getBlockByHeight n = some b ∧ b.number = n := by
  have hroot : ∃ root, Chain.toyTwo.storage.blockByHeight.lookup n = some root := by
    match n, hn with
    | 0, _ => exact ⟨toyRoot 0 0, by decide⟩
    | 1, _ => exact ⟨toyRoot 1 0, by decide⟩
  obtain ⟨root, hroot⟩ := hroot
  obtain ⟨b, hb, number⟩ := Chain.toyTwo_rooted.indexed hroot
  exact ⟨b, Option.bind_eq_some_iff.mpr ⟨root, hroot, hb⟩, number⟩

/-- A rollback to a stored block. -/
lemma rollbackHead_eq {P : Primitives} {env : Env} {height : Nat} {c : Chain}
    (hs : c.storage.Grounded) {target : SignedConsensusBlock}
    (htarget : c.storage.getBlockByHeight height = some target) (hcommit : env.commitOps = true) :
    ∃ powBlock, (rollbackHead P env height c).2 =
      { c with
        head := some (target.blockRef P)
        storage := c.storage.rollback P target powBlock } := by
  obtain ⟨root, hroot, hstored⟩ := Option.bind_eq_some_iff.mp htarget
  obtain ⟨powBlock, hpow⟩ : ∃ powBlock,
      c.storage.findPowBlockForRollback height = .ok powBlock := by
    rcases (Storage.walks_exact hs).pow height root target hroot hstored with
      ⟨_, p, _, _, e⟩ | ⟨_, e⟩
    · exact ⟨_, e⟩
    · exact ⟨_, e⟩
  refine ⟨powBlock, ?_⟩
  simp only [rollbackHead, Action.bind_apply, Action.get_apply, Action.lift_apply, htarget, okOr,
    hpow, updateHeadRefOps, Bool.not_true, Bool.false_eq_true, and_false,
    if_false, Action.modify_apply, Action.pure_apply, hcommit, if_true]
  cases powBlock <;> rfl

namespace SyncNode

variable {ι : Type} {P : Primitives} {cfg : ChainConfig} {base : Nat} {s : SyncNode ι} {i : ι}

/-- The head, and the heads at which requests were prepared, are below a height by at most the
number of rollbacks. -/
structure Retains (P : Primitives) (base : Nat) (s : SyncNode ι) : Prop where
  core : s.chain.core.Above P (base - rollbacks s.log)
  calls : ∀ i h, (s.calls i).head? = some h → base ≤ h + rollbacks s.log

namespace Retains

lemma chain (h : s.Retains P base) {chain : Chain}
    (hcore : chain.core.Above P (base - rollbacks s.log)) :
    { s with chain }.Retains P base :=
  ⟨hcore, h.calls⟩

lemma status (h : s.Retains P base) (syncStatus : SyncStatus) :
    { s with chain := { s.chain with syncStatus } }.Retains P base :=
  ⟨h.core, h.calls⟩

lemma breaker (h : s.Retains P base) (circuitBreaker : RpcCircuitBreaker) :
    { s with circuitBreaker }.Retains P base :=
  ⟨h.core, h.calls⟩

/-- A mark that is not a rollback. -/
lemma log (h : s.Retains P base) (mark : SyncMark) (hmark : mark ≠ .rolledBack)
    (circuitBreaker : RpcCircuitBreaker) :
    { s with circuitBreaker, log := s.log ++ [mark] }.Retains P base := by
  have hcount : rollbacks (s.log ++ [mark]) = rollbacks s.log := by
    rw [rollbacks, List.count_append, List.count_singleton, beq_eq_false_iff_ne.mpr hmark]
    rfl
  refine ⟨?_, ?_⟩
  · rw [hcount]
    exact h.core
  · rw [hcount]
    exact h.calls

/-- A rollback to the block below the head of a request. -/
lemma rollBack (h : s.Retains P base) {env : Env} {head : Nat}
    (hhead : base ≤ head + rollbacks s.log) :
    { s with
      chain := (rollbackHead P env (head - 1) s.chain).2
      log := s.log ++ [SyncMark.rolledBack] }.Retains P base := by
  have hcount : rollbacks (s.log ++ [SyncMark.rolledBack]) = rollbacks s.log + 1 := by
    rw [rollbacks, List.count_append, List.count_singleton_self]
    rfl
  refine ⟨?_, fun j head' e => ?_⟩
  · rw [hcount, ← Nat.sub_sub]
    exact h.core.rollback (by omega)
  · have := h.calls j head' e
    rw [hcount]
    omega

variable [DecidableEq ι]

section

variable (h : s.Retains P base)

include h

/-- A call goes on with the head it has. -/
lemma goto {task : SyncTask}
    (htask : ∀ head, task.head? = some head → base ≤ head + rollbacks s.log) :
    (s.goto i task).Retains P base where
  core := h.core
  calls := by
    intro j head e
    by_cases hj : j = i
    · subst hj
      rw [calls_goto_self] at e
      exact htask head e
    · rw [calls_goto_of_ne hj] at e
      exact h.calls j head e

/-- A call goes on without a head. -/
lemma leave {task : SyncTask} (htask : task.head? = none) :
    (s.goto i task).Retains P base :=
  h.goto fun _ e => by
    rw [htask] at e
    cases e

lemma call : (s.call i).Retains P base := by
  unfold SyncNode.call
  split
  case h_1 => exact (h.status .inProgress).leave rfl
  case h_2 => exact h

lemma produce (hP : RootsSound P) {env : ProducerEnv} {slot : Nat} :
    (s.produce P cfg i env slot).Retains P base := by
  unfold SyncNode.produce
  split
  case h_1 =>
    split
    case h_1 prev hlost =>
      have hlow := h.core.lostHead hP hlost
      refine h.goto fun head e => ?_
      cases e
      omega
    case h_2 hnone =>
      exact h.chain (produceBlock_keeps hnone h.core fun _ _ => (Core.Above.stable hP cfg).block)
  case h_2 => exact h

lemma rpc {ok : Bool} : (s.rpc i ok).Retains P base := by
  unfold SyncNode.rpc
  split
  case h_1 head peer rest attempt backoff hcall =>
    have hhead := h.calls i head (by rw [hcall]; rfl)
    refine h.goto fun head' e => ?_
    split at e
    · cases e
      exact hhead
    · cases SyncTask.head?_retry e
      exact hhead
  case h_2 => exact h

lemma recv (hP : RootsSound P) {env response} :
    (s.recv P cfg i env response).Retains P base := by
  unfold SyncNode.recv
  split
  case h_1 head blocksProcessed hcall =>
    have hhead := h.calls i head (by rw [hcall]; rfl)
    split
    case h_1 block =>
      refine (h.chain ((Core.Above.stable hP cfg).block h.core)).goto fun head' e => ?_
      cases SyncTask.head?_processed e
      exact hhead
    case h_2 => exact h
    case h_3 => exact h
    case h_4 => exact h
    case h_5 =>
      split
      · exact h.leave rfl
      · exact h.leave rfl
  case h_2 => exact h

/-- A call takes its turn. -/
lemma resume {env : Env} : (s.resume P i env).Retains P base := by
  unfold SyncNode.resume
  split
  case h_1 =>
    split
    · exact h
    · exact h.leave rfl
  case h_2 =>
    refine h.goto fun head e => ?_
    obtain ⟨b, hb, hlow⟩ := h.core.head
    have hb : s.chain.head = some (b.blockRef P) := hb
    rw [hb] at e
    cases e
    show base ≤ b.number + _
    omega
  case h_3 head hcall =>
    refine h.goto fun head' e => ?_
    cases SyncTask.head?_tryPeers e
    exact h.calls i head (by rw [hcall]; rfl)
  case h_4 head peer rest hcall =>
    refine (h.breaker _).goto fun head' e => ?_
    split at e
    · cases e
      exact h.calls i head (by rw [hcall]; rfl)
    · cases e
  case h_5 head peer rest attempt backoff wakeAt hcall =>
    split
    · exact h
    · refine h.goto fun head' e => ?_
      cases e
      exact h.calls i head (by rw [hcall]; rfl)
  case h_6 head hcall =>
    have hlog := h.log .succeeded nofun s.circuitBreaker.recordSuccess
    refine hlog.goto fun head' e => ?_
    cases e
    exact hlog.calls i head (by rw [hcall]; rfl)
  case h_7 head rest hcall =>
    have hlog := h.log (.failed s.now) nofun (s.circuitBreaker.recordFailure s.now)
    refine hlog.goto fun head' e => ?_
    cases SyncTask.head?_tryPeers e
    exact hlog.calls i head (by rw [hcall]; rfl)
  case h_8 head hcall =>
    exact (h.rollBack (h.calls i head (by rw [hcall]; rfl))).leave rfl
  case h_9 => exact (h.status .synced).leave rfl
  case h_10 => exact h

lemma step (hP : RootsSound P) (e : SyncEvent ι) (ok : s.Allowed e) :
    (s.step P cfg e).Retains P base := by
  cases e with
  | tick => exact ⟨h.core, h.calls⟩
  | discovered => exact ⟨h.core, h.calls⟩
  | node e => exact h.chain ((Core.Above.stable hP cfg).event ok h.core)
  | produce => exact h.produce hP
  | call => exact h.call
  | resume => exact h.resume
  | rpc => exact h.rpc
  | recv => exact h.recv hP

end

end Retains

/-- A call of `sync` up to where it waits for the first response. -/
def requestBlocks (env : Env) : List (SyncEvent Unit) :=
  [.call (), .resume () env, .resume () env, .resume () env, .resume () env, .rpc () true,
    .resume () env]

/-- A call of `sync` that is answered with one block. -/
def staleRound (env : Env) (b : SignedConsensusBlock) : List (SyncEvent Unit) :=
  requestBlocks env ++ [.recv () env (some (.blocksByRange b)), .resume () env]

/-- An execution layer that has lost every payload. -/
def toyForgetful : ProducerEnv :=
  { ProducerEnv.toy .toyNumbered 3 with payloadAvailable _ := some false }

/-- In every run of any number of calls, whatever the peers answer, whatever blocks are produced and
whatever the rest of the node does in between: the head is below the one at the start by at most the
number of rollbacks. -/
theorem head_falls_by_rollbacks [DecidableEq ι] {P : Primitives} {cfg : ChainConfig}
    (hP : RootsSound P) {chain : Chain} {s : SyncNode ι} {b : SignedConsensusBlock}
    (hindexed : chain.storage.Indexed P) (hhead : chain.head = some (b.blockRef P))
    (run : SyncRun P cfg (.start chain) s) :
    ∃ head, s.chain.head = some head ∧ b.number ≤ head.height + rollbacks s.log := by
  have hstart : (SyncNode.start (ι := ι) chain).Retains P b.number :=
    ⟨⟨hindexed, b, hhead, Nat.sub_le _ _⟩, fun _ _ => nofun⟩
  have h : s.Retains P b.number := run.invariant hstart fun _ e h ok => h.step hP e ok
  obtain ⟨b', hhead', hlow⟩ := h.core.head
  refine ⟨_, hhead', ?_⟩
  show b.number ≤ b'.number + _
  omega

/-- A producer whose execution layer lost the payload costs one block of the two. -/
theorem head_falls_by_rollbacks_lost :
    let s := (start Chain.toyTwo).play .toy (.toy 1 0)
      [.produce () toyForgetful 3, .resume () .toyNumbered]
    rollbacks s.log = 1 ∧ ∃ head, s.chain.head = some head ∧ 2 ≤ head.height + 1 := by
  intro s
  have run : SyncRun .toy (.toy 1 0) (start Chain.toyTwo) s := .play rfl _
  have hlog : rollbacks s.log = 1 := rfl
  have hhead : Chain.toyTwo.head =
      some ((SignedConsensusBlock.toyNumberedPow 2).blockRef .toy) := Chain.toyTwo_head
  obtain ⟨head, hhead', hle⟩ := head_falls_by_rollbacks Primitives.toy_rootsSound
    ⟨Chain.toyTwo_rooted.keyed, Chain.toyTwo_rooted.indexed⟩ hhead run
  exact ⟨hlog, head, hhead', hlog ▸ hle⟩

/-! ## A peer that sends stale blocks -/

/-- The call waits for a response. -/
lemma requestBlocks_eq {s : SyncNode Unit} (env : Env) (hcall : s.calls () = .returned)
    (hpeers : s.peers ≠ []) (hclosed : s.circuitBreaker.isOpen = false) :
    s.play P cfg (requestBlocks env) =
      { s with
        chain := { s.chain with syncStatus := .inProgress }
        circuitBreaker := s.circuitBreaker.recordSuccess
        calls := fun _ => .receive ((s.chain.head.map (·.height)).getD 0) 0
        log := s.log ++ [.succeeded] } := by
  obtain ⟨chain, ⟨_, _, isOpen, _, _⟩, peers, now, calls, log⟩ := s
  obtain rfl : isOpen = false := hclosed
  obtain rfl : calls = fun _ => .returned := funext fun _ => hcall
  obtain ⟨peer, rest, rfl⟩ := List.exists_cons_of_ne_nil hpeers
  rfl

/-- A node on the blocks of a store, with a head at a height, that is not held back from a call. -/
structure Idle (base : Storage) (height : Nat) (s : SyncNode Unit) : Prop where
  call : s.calls () = .returned
  peers : s.peers ≠ []
  closed : s.circuitBreaker.isOpen = false
  blocks : s.chain.storage.blocks = base.blocks
  index : s.chain.storage.blockByHeight = base.blockByHeight
  head : ∃ head, s.chain.head = some head ∧ head.height = height

/-- One stale block moves the head back by one. -/
lemma Idle.staleRound {base : Storage} {height : Nat} {s : SyncNode Unit}
    (h : s.Idle base (height + 1)) (hbase : base.Grounded) {target b : SignedConsensusBlock}
    (htarget : base.getBlockByHeight height = some target) (hnumber : target.number = height)
    {env : Env} (hcommit : env.commitOps = true) (hb : b.IsStale) :
    (s.play P cfg (staleRound env b)).Idle base height := by
  obtain ⟨head, hhead, hheight⟩ := h.head
  have hget : ∀ root, s.chain.storage.getBlock root = base.getBlock root := fun root => by
    rw [Storage.getBlock, h.blocks, Storage.getBlock]
  have hs : s.chain.storage.Grounded := by
    refine ⟨by rw [hget]; exact hbase.zero, fun stored => ?_⟩
    rw [hget] at stored ⊢
    exact hbase.parents stored
  have hfound : s.chain.storage.getBlockByHeight height = some target := by
    rw [← htarget, Storage.getBlockByHeight, Storage.getBlockByHeight, h.index]
    exact congrArg _ (funext hget)
  obtain ⟨powBlock, hrolled⟩ := rollbackHead_eq (P := P)
    (c := { s.chain with syncStatus := .inProgress }) hs hfound hcommit
  have hprocess := hb.processBlock_eq P cfg env
    (c := { s.chain with syncStatus := .inProgress }) hhead
  rw [SyncNode.staleRound, play_append, requestBlocks_eq env h.call h.peers h.closed, hhead]
  simp only [play, List.foldl_cons, List.foldl_nil, step, recv, process, hprocess,
    SyncTask.processed, Option.map_some, Option.getD_some, hheight]
  refine ⟨rfl, h.peers, rfl, ?_, ?_, ?_⟩
  · show (rollbackHead P env height { s.chain with syncStatus := .inProgress }).2.storage.blocks = _
    rw [hrolled]
    exact h.blocks
  · show (rollbackHead P env height
      { s.chain with syncStatus := .inProgress }).2.storage.blockByHeight = _
    rw [hrolled]
    exact h.index
  · show ∃ head', (rollbackHead P env height
      { s.chain with syncStatus := .inProgress }).2.head = some head' ∧ _
    rw [hrolled]
    exact ⟨_, rfl, hnumber⟩

/-- A peer that answers every call of `sync` with one stale block takes the head back by one block
with each, as far down as it likes and whatever was finalized. -/
theorem sync_walks_back {P : Primitives} {cfg : ChainConfig} {s : SyncNode Unit} {head : BlockRef}
    (hs : s.chain.storage.Grounded) (hhead : s.chain.head = some head)
    (hindex : ∀ n < head.height, ∃ b, s.chain.storage.getBlockByHeight n = some b ∧ b.number = n)
    (hcall : s.calls () = .returned) (hpeers : s.peers ≠ [])
    (hclosed : s.circuitBreaker.isOpen = false) {env : Env} (hcommit : env.commitOps = true)
    {b : SignedConsensusBlock} (hb : b.IsStale) {k : Nat} (hk : k ≤ head.height) :
    ∃ head', head'.height + k = head.height ∧
      (s.play P cfg (List.replicate k (staleRound env b)).flatten).chain.head = some head' := by
  have hidle : ∀ k ≤ head.height,
      (s.play P cfg (List.replicate k (staleRound env b)).flatten).Idle s.chain.storage
        (head.height - k) := by
    intro k
    induction k with
    | zero => exact fun _ => ⟨hcall, hpeers, hclosed, rfl, rfl, head, hhead, rfl⟩
    | succ k ih =>
      intro hk
      obtain ⟨target, htarget, hnumber⟩ := hindex (head.height - (k + 1)) (by omega)
      have h := ih (by omega)
      rw [show head.height - k = head.height - (k + 1) + 1 by omega] at h
      rw [List.replicate_succ', List.flatten_concat, play_append]
      exact h.staleRound hs htarget hnumber hcommit hb
  obtain ⟨head', hhead', hheight⟩ := (hidle k hk).head
  exact ⟨head', by omega, hhead'⟩

/-- The node with two blocks goes back to the genesis block. -/
theorem sync_walks_back_genesis :
    ∃ head' : BlockRef, head'.height + 2 = 2 ∧
      (play .toy (.toy 1 0) (List.replicate 2 (staleRound .toyNumbered .toyStale)).flatten
        { start Chain.toyTwo with peers := [1] }).chain.head = some head' := by
  have hindex : ∀ n < (⟨toyRoot 2 0, 2⟩ : BlockRef).height,
      ∃ b, Chain.toyTwo.storage.getBlockByHeight n = some b ∧ b.number = n :=
    fun _ => Chain.toyTwo_index
  have hcommit : Env.toyNumbered.commitOps = true := rfl
  exact sync_walks_back (s := { start Chain.toyTwo with peers := [1] })
    Chain.toyTwo_rooted.grounded Chain.toyTwo_head hindex rfl nofun rfl hcommit
    SignedConsensusBlock.toyStale_isStale le_rfl

end SyncNode

end Alys
