import Alys.Chain.HashCache
import Alys.Lib.Thread

/-!
# Tasks that accept the same block

Gossip, sync and the slot worker run in tasks of their own, and each of them calls
`maybe_accept_block`. A task can be suspended at every await, which is where it takes a lock or
calls the execution layer, so the steps of a call interleave with those of the others. Here the call
and the import are split into these steps; a task that is not interrupted does what
`maybeAcceptBlock` does (`acceptTask_alone`).

The candidate is read, and the candidates are cleared, under two acquisitions of the lock. A task
that reads after another has read and before it clears imports the block a second time.
-/

namespace Alys
open Lib

/-! ## The steps of a call -/

/-- The steps of a task that matter for how often a block is imported. -/
inductive Await where
  /-- `block_candidates.get_block` -/
  | readCandidate
  /-- `block_candidates.clear` -/
  | clearCandidates
  /-- the first step of `import_verified_block`, `engine.commit_block` -/
  | callImport
  | other
  deriving DecidableEq

/-- A call that is suspended at its awaits. -/
abbrev Task := Thread Await Chain Failure

/-- A step of an import after the first one. -/
abbrev Task.other {α : Type} (x : ChainM α) : Task α := .atomic .other x

section
variable (P : Primitives) (cfg : ChainConfig) (env : Env)

/-- `importPegin` in steps. -/
def importPeginTask (pegin : Txid × BlockHash) : Task Unit := do
  Task.other <| Action.modify fun c => { c with queuedPegins := c.queuedPegins.erase pegin.1 }
  Task.other do
    let tx ← Action.lift (okOr (Bridge.fetchTransaction env.rpc pegin.1 pegin.2) .panic)
    Action.modify fun c =>
      { c with bitcoinWallet := c.bitcoinWallet.registerPegin P cfg.bitcoinFederation tx }

/-- `importFinalized` in steps. -/
def importFinalizedTask (finalizedPegouts : List Transaction) : Task Unit :=
  .forEach finalizedPegouts fun tx =>
    Task.other <| Action.modify fun c =>
      { c with
        bitcoinSignatureCollector :=
          c.bitcoinSignatureCollector.cleanupSignaturesFor (P.txid tx) }

/-- `importPegs` in steps. -/
def importPegsTask (b : SignedConsensusBlock) : Task Unit := do
  .forEach b.message.pegins (importPeginTask P cfg env)
  Task.other (importPegout P cfg b.message.pegoutPaymentProposal)
  importFinalizedTask P b.message.finalizedPegouts

/-- `finalize` in steps. -/
def finalizeTask (b : SignedConsensusBlock) (pow : AuxPowHeader) : Task (List StoreOp) := do
  Task.other <| Action.modify fun c => { c with queuedPow := none }
  Task.other do
    let c ← Action.get
    if pow.rangeEnd ≠ Hash256.zero ∧ (c.storage.getBlock pow.rangeEnd).isNone then
      Action.fail .panic
    else
      return [.putLatestPowBlock (b.blockRef P)]

/-- `storeBlock` in steps. -/
def storeBlockTask (b : SignedConsensusBlock) (accumulateFeesOps : List StoreOp) : Task Unit := do
  let putBlockOps := Storage.putBlock (b.canonicalRoot P) b
  let setHeadOps ← Task.other (updateHeadRefOps (b.blockRef P) false)
  let finalizationOps ←
    match b.message.auxpowHeader with
    | some pow => finalizeTask P b pow
    | none => pure []
  Task.other
    (commitImport env b (accumulateFeesOps ++ putBlockOps ++ setHeadOps ++ finalizationOps))
  Task.other (updateBlockHashCache P b)

/-- `importVerifiedBlockNoCommit` in steps. -/
def importNoCommitTask (b : SignedConsensusBlock) : Task Unit := do
  let (executionBlock, executionReceipts) ←
    Task.other (Action.lift (env.getBlockAndReceipts b.message.executionPayload.blockHash))
  let accumulateFeesOps ← Task.other do
    let c ← Action.get
    Action.lift (accumulateFees P c.storage b executionBlock executionReceipts)
  if cfg.isValidator then
    importPegsTask P cfg env b
  storeBlockTask P env b accumulateFeesOps

/-- `importVerifiedBlock` in steps. -/
def importTask (b : SignedConsensusBlock) : Task Unit := do
  .atomic .callImport (Action.lift (env.commitBlock b.message.executionPayload))
  importNoCommitTask P cfg env b

/-- What a task does with a candidate that a majority approved. -/
def clearTask (b : SignedConsensusBlock) : Task Unit := do
  .atomic .clearCandidates (Action.modify fun c => { c with blockCandidates := .empty })
  importTask P cfg env b

/-- `maybeAcceptBlock` in steps. -/
def acceptTask (hash : Hash256) : Task Unit := do
  let candidate ← .atomic .readCandidate do
    let c ← Action.get
    return c.blockCandidates.getBlock hash
  match candidate with
  | none => .done (.error (.error .candidateCacheError))
  | some block =>
    if ← Thread.done (cfg.aura.majorityApproved P block) then
      clearTask P cfg env block

end

/-! ## A task alone -/

section
variable {P : Primitives} {cfg : ChainConfig} {env : Env} {b : SignedConsensusBlock}

lemma importFinalizedTask_alone {finalizedPegouts : List Transaction} :
    (importFinalizedTask P finalizedPegouts).alone =
      Action.modify (importFinalized P finalizedPegouts) := by
  rw [importFinalizedTask, Thread.alone_forEach]
  induction finalizedPegouts with
  | nil => rfl
  | cons tx rest ih =>
    rw [Action.forEach, ih]
    rfl

lemma importPegsTask_alone : (importPegsTask P cfg env b).alone = importPegs P cfg env b := by
  simp only [importPegsTask, importPegs, Thread.alone_bind, Thread.alone_forEach,
    Thread.alone_atomic, importFinalizedTask_alone]
  rfl

lemma storeBlockTask_alone {ops : List StoreOp} :
    (storeBlockTask P env b ops).alone = storeBlock P env b ops := by
  rw [storeBlockTask, storeBlock]
  cases b.message.auxpowHeader with
  | none => simp only [Thread.alone_bind, Thread.alone_atomic, Thread.alone_pure]
  | some pow =>
    simp only [finalizeTask, finalize, Thread.alone_bind, Thread.alone_atomic, bind_assoc]

lemma importNoCommitTask_alone :
    (importNoCommitTask P cfg env b).alone = importVerifiedBlockNoCommit P cfg env b := by
  simp only [importNoCommitTask, importVerifiedBlockNoCommit, Thread.alone_bind,
    Thread.alone_atomic, bind_assoc]
  refine congrArg _ (funext fun execution => ?_)
  by_cases hv : cfg.isValidator = true
  · simp only [if_pos hv, Thread.alone_bind, importPegsTask_alone, storeBlockTask_alone]
  · simp only [if_neg hv, storeBlockTask_alone]

/-- A task that is not interrupted does what the call does. -/
theorem acceptTask_alone {hash : Hash256} :
    (acceptTask P cfg env hash).alone = maybeAcceptBlock P cfg env hash := by
  simp only [acceptTask, maybeAcceptBlock, Thread.alone_bind, Thread.alone_atomic, bind_assoc,
    pure_bind]
  refine congrArg _ (funext fun c => ?_)
  cases c.blockCandidates.getBlock hash with
  | none => rfl
  | some b =>
    simp only [Thread.alone_bind, Thread.alone_done]
    refine congrArg _ (funext fun majority => ?_)
    cases majority with
    | false => rfl
    | true =>
      simp only [if_true, clearTask, importTask, importVerifiedBlock, Thread.alone_bind,
        Thread.alone_atomic, importNoCommitTask_alone]

end

/-! ## The steps of an import -/

/-- A step of an import that leaves the candidates and the block hash cache. -/
def Silent (label : Await) (write : Chain → Chain) : Prop :=
  label = .other ∧ ∀ c, (write c).blockCandidates = c.blockCandidates ∧
    (write c).blockHashCache = c.blockHashCache

lemma silent_of {α : Type} {x : ChainM α} (h : ∀ c, (x c).2.blockCandidates = c.blockCandidates ∧
    (x c).2.blockHashCache = c.blockHashCache) : (Task.other x).Steps Silent :=
  .atomic ⟨rfl, h⟩

/-- A step of an import that leaves the candidates and adds a hash to the block hash cache at most
once. -/
def AddsOnce (hash : Hash256) (label : Await) (write : Chain → Chain) : Prop :=
  label = .other ∧ ∀ c, (write c).blockCandidates = c.blockCandidates ∧
    (write c).blockHashCache.count hash ≤ c.blockHashCache.count hash + 1

section
variable {P : Primitives} {cfg : ChainConfig} {env : Env} {b : SignedConsensusBlock}

lemma resetWith_sublist {hash : BlockHash} {hashes rest : List BlockHash}
    (e : resetWith hashes hash = .ok rest) : rest.Sublist hashes := by
  rw [resetWith] at e
  split at e
  · cases e
    exact List.drop_sublist _ _
  · cases e

variable {hash : Hash256}

lemma count_nextHashes_le {hashes : List BlockHash} :
    (nextHashes P b hashes).count hash ≤ hashes.count hash + 1 := by
  have hadd : ∀ rest : List BlockHash, rest.count hash ≤ hashes.count hash →
      (rest ++ [b.canonicalRoot P]).count hash ≤ hashes.count hash + 1 := by
    intro rest h
    rw [List.count_append]
    exact Nat.add_le_add h List.count_le_length
  rw [nextHashes]
  split
  · exact Nat.le_succ _
  · split
    · exact hadd hashes le_rfl
    · split
      case h_1 rest e => exact hadd rest ((resetWith_sublist e).count_le hash)
      case h_2 => exact Nat.le_succ _

lemma importPegsTask_silent : (importPegsTask P cfg env b).Steps Silent := by
  refine .bind (.forEach fun pegin => ?_) fun _ => .bind (silent_of fun c => ?_) fun _ =>
    .forEach fun tx => silent_of fun c => ⟨rfl, rfl⟩
  · refine .bind (silent_of fun c => ⟨rfl, rfl⟩) fun _ => silent_of fun c => ?_
    simp only [Action.bind_apply, Action.lift_apply]
    cases Bridge.fetchTransaction env.rpc pegin.1 pegin.2 <;> exact ⟨rfl, rfl⟩
  · cases b.message.pegoutPaymentProposal <;> exact ⟨rfl, rfl⟩

lemma finalizeTask_silent {pow : AuxPowHeader} : (finalizeTask P b pow).Steps Silent := by
  refine .bind (silent_of fun c => ⟨rfl, rfl⟩) fun _ => silent_of fun c => ?_
  simp only [Action.bind_apply, Action.get_apply, Action.ite_apply]
  split <;> exact ⟨rfl, rfl⟩

/-- The block hash cache is updated in the last step. -/
lemma storeBlockTask_endsWith {ops : List StoreOp} :
    (storeBlockTask P env b ops).EndsWith Silent (AddsOnce hash) := by
  have hstore : ∀ ops, Thread.EndsWith Silent (AddsOnce hash)
      (Task.other (commitImport env b ops) >>= fun _ => Task.other (updateBlockHashCache P b)) := by
    intro ops
    refine .bind (silent_of fun c => ?_) fun _ => .last ⟨rfl, fun c => ?_⟩
    · rw [commitImport]
      split <;> exact ⟨rfl, rfl⟩
    · beta_reduce
      rw [updateBlockHashCache_snd]
      exact ⟨rfl, count_nextHashes_le⟩
  refine .bind (silent_of fun c => ?_) fun _ => ?_
  · rw [updateHeadRefOps_apply]
    exact ⟨rfl, rfl⟩
  · cases b.message.auxpowHeader with
    | none => exact .bind .pure fun _ => hstore _
    | some pow => exact .bind finalizeTask_silent fun _ => hstore _

/-- What follows the first step of an import. -/
lemma importNoCommitTask_endsWith :
    (importNoCommitTask P cfg env b).EndsWith Silent (AddsOnce hash) := by
  refine .bind (silent_of fun c => ⟨rfl, rfl⟩) fun _ =>
    .bind (silent_of fun c => ⟨rfl, rfl⟩) fun _ => ?_
  split
  · exact .bind importPegsTask_silent fun _ => storeBlockTask_endsWith
  · exact storeBlockTask_endsWith

end

/-! ## Interleavings -/

/-- The tasks of a node. -/
abbrev Tasks (ι : Type) := Pool ι Await Chain Failure Unit

namespace Tasks

variable {ι : Type}

/-- Tasks that are about to call `maybe_accept_block` with the same hash, each with what the
environment answers it. -/
def start (P : Primitives) (cfg : ChainConfig) (env : ι → Env) (hash : Hash256) (c : Chain) :
    Tasks ι :=
  ⟨c, fun i => acceptTask P cfg (env i) hash, []⟩

/-- How often `import_verified_block` was called. -/
def imports (p : Tasks ι) : Nat := p.trace.count .callImport

/-- A task does not read the candidate while another one is between its read and its clear. -/
def Apart (p : Tasks ι) (i : ι) : Prop :=
  p.next i = some .readCandidate → ∀ j, p.next j ≠ some .clearCandidates

variable {P : Primitives} {cfg : ChainConfig} {env : ι → Env} {hash : Hash256} {n : Nat}
  {p : Tasks ι} {i j : ι}

variable (P cfg env hash) in
/-- A task that has not read the candidate, or is over. -/
def Waiting (i : ι) (t : Task Unit) : Prop :=
  t = acceptTask P cfg (env i) hash ∨ ∃ r, t = .done r

variable (P cfg env hash n i p) in
/-- Where the task stands that found the candidate, and what this says about the node. -/
inductive Owner : Prop where
  | clearing (b : SignedConsensusBlock) (thread : p.threads i = clearTask P cfg (env i) b)
    (calls : imports p = 0) (hashes : p.shared.blockHashCache.count hash ≤ n)
  | calling (b : SignedConsensusBlock) (thread : p.threads i = importTask P cfg (env i) b)
    (empty : p.shared.blockCandidates = .empty)
    (calls : imports p = 0) (hashes : p.shared.blockHashCache.count hash ≤ n)
  | importing (thread : (p.threads i).EndsWith Silent (AddsOnce hash))
    (empty : p.shared.blockCandidates = .empty)
    (calls : imports p = 1) (hashes : p.shared.blockHashCache.count hash ≤ n)
  | finished (thread : ∃ r, p.threads i = .done r)
    (empty : p.shared.blockCandidates = .empty)
    (calls : imports p = 1) (hashes : p.shared.blockHashCache.count hash ≤ n + 1)

variable (P cfg env hash n p) in
/-- No task has found the candidate yet, or one has and the others wait. -/
inductive Phase : Prop where
  | idle (waiting : ∀ j, Waiting P cfg env hash j (p.threads j)) (calls : imports p = 0)
    (hashes : p.shared.blockHashCache.count hash ≤ n)
  | owned (i : ι) (waiting : ∀ j, j ≠ i → Waiting P cfg env hash j (p.threads j))
    (owner : Owner P cfg env hash n p i)

/-- The first step of a call: it ends there, or goes on with the candidate. -/
lemma acceptTask_step {env : Env} : ∃ next, acceptTask P cfg env hash =
      .step .readCandidate (fun c => c) next ∧
    ∀ c, (∃ r, next c = .done r) ∨
      ∃ b, c.blockCandidates.getBlock hash = some b ∧ next c = clearTask P cfg env b := by
  refine ⟨_, rfl, fun c => ?_⟩
  cases hb : c.blockCandidates.getBlock hash with
  | none =>
    refine .inl ⟨.error (.error .candidateCacheError), ?_⟩
    simp only [Action.bind_apply, Action.get_apply, Action.pure_apply, hb]
    rfl
  | some b =>
    simp only [Action.bind_apply, Action.get_apply, Action.pure_apply, hb]
    cases hm : cfg.aura.majorityApproved P b with
    | error e => exact .inl ⟨.error e, by simp only [Thread.bind, hm]; rfl⟩
    | ok majority =>
      cases majority with
      | false => exact .inl ⟨.ok (), by simp only [Thread.bind, hm]; rfl⟩
      | true => exact .inr ⟨b, rfl, by simp only [Thread.bind, hm]; rfl⟩

/-- What another task does not touch. -/
lemma Owner.of_eq {p' : Tasks ι} (h : Owner P cfg env hash n p i)
    (hthread : p'.threads i = p.threads i) (hshared : p'.shared = p.shared)
    (hcalls : imports p' = imports p) : Owner P cfg env hash n p' i := by
  cases h with
  | clearing b thread calls hashes =>
    exact .clearing b (hthread.trans thread) (hcalls.trans calls) (hshared ▸ hashes)
  | calling b thread empty calls hashes =>
    exact .calling b (hthread.trans thread) (hshared ▸ empty) (hcalls.trans calls)
      (hshared ▸ hashes)
  | importing thread empty calls hashes =>
    exact .importing (hthread ▸ thread) (hshared ▸ empty) (hcalls.trans calls) (hshared ▸ hashes)
  | finished thread empty calls hashes =>
    exact .finished (hthread ▸ thread) (hshared ▸ empty) (hcalls.trans calls) (hshared ▸ hashes)

lemma Phase.bounds (h : Phase P cfg env hash n p) :
    imports p ≤ 1 ∧ p.shared.blockHashCache.count hash ≤ n + 1 := by
  cases h with
  | idle _ calls hashes => exact ⟨by omega, by omega⟩
  | owned i _ owner =>
    cases owner with
    | clearing _ _ calls hashes => exact ⟨by omega, by omega⟩
    | calling _ _ _ calls hashes => exact ⟨by omega, by omega⟩
    | importing _ _ calls hashes => exact ⟨by omega, by omega⟩
    | finished _ _ calls hashes => exact ⟨by omega, hashes⟩

variable [DecidableEq ι]

lemma imports_step {label : Await} {write : Chain → Chain} {next : Chain → Task Unit}
    (h : p.threads i = .step label write next) :
    imports (p.step i) = imports p + if label = .callImport then 1 else 0 := by
  rw [imports, Pool.trace_step h, List.count_append, List.count_singleton, imports]
  simp only [beq_iff_eq]

/-- The task that found the candidate goes on: it clears the candidates, calls the import and takes
its steps. -/
lemma Owner.step (h : Owner P cfg env hash n p i) : Owner P cfg env hash n (p.step i) i := by
  cases h with
  | clearing b thread calls hashes =>
    have hshared := Pool.shared_step thread
    refine .calling b (Pool.threads_step_self thread) (by rw [hshared]; rfl) ?_ ?_
    · rw [imports_step thread, calls]
      rfl
    · rw [hshared]
      exact hashes
  | calling b thread empty calls hashes =>
    have hshared := Pool.shared_step thread
    refine .importing ?_ (by rw [hshared]; exact empty) ?_ ?_
    · rw [Pool.threads_step_self thread]
      exact .bind trivial fun _ => importNoCommitTask_endsWith
    · rw [imports_step thread, calls]
      rfl
    · rw [hshared]
      exact hashes
  | importing thread empty calls hashes =>
    cases ht : p.threads i with
    | done r =>
      rw [Pool.step_of_done ht]
      exact .importing thread empty calls hashes
    | step label write next =>
      have hshared := Pool.shared_step ht
      rw [ht] at thread
      obtain ⟨⟨rfl, silent⟩, rest⟩ | ⟨⟨rfl, adds⟩, rest⟩ := thread
      · obtain ⟨hcandidates, hhashes⟩ := silent p.shared
        refine .importing ?_ (by rw [hshared, hcandidates, empty]) ?_ ?_
        · rw [Pool.threads_step_self ht]
          exact rest p.shared
        · rw [imports_step ht, calls]
          rfl
        · rw [hshared, hhashes]
          exact hashes
      · obtain ⟨hcandidates, hhashes⟩ := adds p.shared
        refine .finished ?_ (by rw [hshared, hcandidates, empty]) ?_ ?_
        · rw [Pool.threads_step_self ht]
          exact rest p.shared
        · rw [imports_step ht, calls]
          rfl
        · rw [hshared]
          exact hhashes.trans (Nat.succ_le_succ hashes)
  | finished thread empty calls hashes =>
    obtain ⟨r, e⟩ := thread
    rw [Pool.step_of_done e]
    exact .finished ⟨r, e⟩ empty calls hashes

/-- A step of a waiting task leaves the node and calls no import. Afterwards the task is waiting
again, or it found the candidate. -/
lemma Waiting.step (h : Waiting P cfg env hash j (p.threads j)) :
    (p.step j).shared = p.shared ∧ imports (p.step j) = imports p ∧
      (Waiting P cfg env hash j ((p.step j).threads j) ∨
        p.next j = some .readCandidate ∧
        ∃ b, p.shared.blockCandidates.getBlock hash = some b ∧
          (p.step j).threads j = clearTask P cfg (env j) b) := by
  obtain e | ⟨r, e⟩ := h
  · obtain ⟨next, enext, hnext⟩ := @acceptTask_step P cfg hash (env j)
    rw [enext] at e
    refine ⟨Pool.shared_step e, (imports_step e).trans rfl, ?_⟩
    rw [Pool.threads_step_self e]
    obtain ⟨r, hr⟩ | found := hnext p.shared
    · exact .inl (.inr ⟨r, hr⟩)
    · exact .inr ⟨by rw [Pool.next, e], found⟩
  · rw [Pool.step_of_done e]
    exact ⟨rfl, rfl, .inl (.inr ⟨r, e⟩)⟩

/-- A task that is waiting while another one has found the candidate finds nothing. -/
lemma Owner.other (h : Owner P cfg env hash n p i) (ok : Apart p j) (ne : j ≠ i)
    (waiting : Waiting P cfg env hash j (p.threads j)) :
    Owner P cfg env hash n (p.step j) i ∧ Waiting P cfg env hash j ((p.step j).threads j) := by
  obtain ⟨hshared, hcalls, hj⟩ := waiting.step
  refine ⟨h.of_eq (Pool.threads_step ne.symm) hshared hcalls, hj.resolve_right ?_⟩
  rintro ⟨reads, b, hb, _⟩
  have cleared : p.shared.blockCandidates = .empty := by
    cases h with
    | clearing b thread => exact absurd (by rw [Pool.next, thread]; rfl) (ok reads i)
    | calling _ _ empty => exact empty
    | importing _ empty => exact empty
    | finished _ empty => exact empty
  rw [cleared] at hb
  cases hb

/-- One step of any task. -/
lemma Phase.step (h : Phase P cfg env hash n p) (ok : Apart p j) :
    Phase P cfg env hash n (p.step j) := by
  cases h with
  | idle waiting calls hashes =>
    obtain ⟨hshared, hcalls, hj⟩ := (waiting j).step
    have others : ∀ k, k ≠ j → Waiting P cfg env hash k ((p.step j).threads k) := by
      intro k hk
      rw [Pool.threads_step hk]
      exact waiting k
    obtain hj | ⟨_, b, _, hb⟩ := hj
    · refine .idle (fun k => ?_) (hcalls.trans calls) (hshared ▸ hashes)
      by_cases hk : k = j
      · exact hk ▸ hj
      · exact others k hk
    · exact .owned j others (.clearing b hb (hcalls.trans calls) (hshared ▸ hashes))
  | owned i waiting owner =>
    by_cases hj : j = i
    · subst hj
      refine .owned j (fun k hk => ?_) owner.step
      rw [Pool.threads_step hk]
      exact waiting k hk
    · obtain ⟨owner', hwaiting⟩ := owner.other ok hj (waiting j hj)
      refine .owned i (fun k hk => ?_) owner'
      by_cases hkj : k = j
      · exact hkj ▸ hwaiting
      · rw [Pool.threads_step hkj]
        exact waiting k hk

end Tasks

/-- However the steps of the tasks interleave, the block is imported at most once if no task reads
the candidate while another one is between its read and its clear. -/
theorem tasks_import_once {ι : Type} [DecidableEq ι] {P : Primitives} {cfg : ChainConfig}
    {env : ι → Env} {hash : Hash256} {c : Chain} {p : Tasks ι} (new : hash ∉ c.blockHashCache)
    (run : Run Pool.step Tasks.Apart (Tasks.start P cfg env hash c) p) :
    Tasks.imports p ≤ 1 ∧ p.shared.blockHashCache.count hash ≤ 1 := by
  have start : Tasks.Phase P cfg env hash 0 (Tasks.start P cfg env hash c) :=
    .idle (fun j => .inl rfl) rfl (List.count_eq_zero.mpr new).le
  exact (run.invariant start fun p j h ok => h.step ok).bounds

/-- A lone validator that has cached a block and its own approval. -/
def Chain.toyCandidate : Chain :=
  (storeCandidate .toy (.toy 1 0) (.toy 1 0) (Chain.new .toy .empty)).2

/-- Two tasks after steps of theirs. -/
def Tasks.toyAfter (schedule : List Bool) : Tasks Bool :=
  schedule.foldl (fun p i => p.step i)
    (Tasks.start .toy (.toy 1 0) (fun _ => .toy) (toyRoot 1 0) .toyCandidate)

/-- Steps that are allowed one after the other make a run. -/
lemma Tasks.toyAfter_run {A : Tasks Bool → Bool → Prop} {schedule : List Bool}
    (ok : ∀ n (h : n < schedule.length), A (Tasks.toyAfter (schedule.take n)) schedule[n]) :
    Run Pool.step A (Tasks.toyAfter []) (Tasks.toyAfter schedule) := by
  induction schedule using List.reverseRecOn with
  | nil => exact .refl
  | append_singleton schedule i ih =>
    rw [Tasks.toyAfter.eq_def (schedule ++ [i]), List.foldl_append]
    refine .snoc (ih fun n h => ?_) i ?_
    · have hn := ok n (by rw [List.length_append]; omega)
      rwa [List.take_append_of_le_length h.le, List.getElem_append_left h] at hn
    · have hlast := ok schedule.length (by simp)
      rwa [List.take_left, List.getElem_concat_length rfl] at hlast

/-- The second task reads after the first one has cleared the candidates, and both come to their
end. -/
def toyApart : List Bool := [false, false, true] ++ List.replicate 9 false ++ [true]

theorem tasks_import_once_apart :
    let p := Tasks.toyAfter toyApart
    ((∀ i, (p.next i).isNone) ∧ Tasks.imports p = 1 ∧
        p.shared.blockHashCache.count (toyRoot 1 0) = 1) ∧
      Tasks.imports p ≤ 1 ∧ p.shared.blockHashCache.count (toyRoot 1 0) ≤ 1 := by
  intro p
  have run : Run Pool.step Tasks.Apart (Tasks.toyAfter []) p :=
    Tasks.toyAfter_run (by unfold Tasks.Apart; decide +kernel)
  exact ⟨by decide +kernel, tasks_import_once (by decide) run⟩

/-- Both tasks read before one of them clears the candidates: each imports the block, and its hash
is in the cache twice. -/
theorem tasks_import_once_fails :
    ¬ ∀ (P : Primitives) (cfg : ChainConfig) (env : Bool → Env) (hash : Hash256) (c : Chain)
      (b : SignedConsensusBlock) (p : Tasks Bool), c.blockCandidates.getBlock hash = some b →
      cfg.aura.majorityApproved P b = .ok true → hash ∉ c.blockHashCache →
      Run Pool.step (fun _ _ => True) (Tasks.start P cfg env hash c) p →
      Tasks.imports p ≤ 1 ∧ p.shared.blockHashCache.count hash ≤ 1 := by
  intro all
  obtain ⟨b, hb⟩ : ∃ b, Chain.toyCandidate.blockCandidates.getBlock (toyRoot 1 0) = some b :=
    ⟨_, rfl⟩
  have hmajority : (ChainConfig.toy 1 0).aura.majorityApproved .toy b = .ok true := by
    cases hb
    decide
  have run : Run Pool.step (fun _ _ => True) (Tasks.toyAfter [])
      (Tasks.toyAfter ([false, true] ++ List.replicate 9 false ++ List.replicate 9 true)) :=
    Tasks.toyAfter_run fun _ _ => trivial
  have once := all _ _ _ _ _ b _ hb hmajority (by decide) run
  revert once
  decide +kernel

end Alys
