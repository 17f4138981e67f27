import Alys.Chain.Deposits
import Alys.Chain.Produce
import Alys.Lib.Contract

/-!
# Watching Bitcoin for deposits

Model of `monitor_bitcoin_blocks` in `app/src/chain.rs`, of the stream of Bitcoin blocks that it
reads (`stream_blocks_for_pegins` in `crates/federation/src/lib.rs`) and of the height at which the
stream starts (`App::execute`). Both profiles abort the process on a panic, so a panic is a restart
here: the queue is lost, the store and the wallet remain.

The monitor stores the height from which the next start has to scan again: the lowest one of a
queued deposit, or the next one. It reads the sync status once, when it starts, and a monitor that
started on a node that was not synced ignores the deposits of the blocks it reads but moves the
stored height past them all the same. `run_remembered` says that otherwise no deposit is forgotten.
-/

namespace Alys
open Lib

/-! ## The stream -/

/-- A Bitcoin block, with the fields that are read. -/
structure BitcoinBlock where
  blockHash : BlockHash
  txdata : List Transaction

/-- The confirmed Bitcoin blocks by height. No transaction occurs at two heights. -/
structure BitcoinChain (P : Primitives) where
  block : Nat → BitcoinBlock
  unique : ∀ {height height' tx tx'}, tx ∈ (block height).txdata → tx' ∈ (block height').txdata →
    P.txid tx = P.txid tx' → height = height'

/-- The peg-ins of a streamed block. -/
def Bridge.blockPegins (P : Primitives) (B : Bridge) (block : BitcoinBlock) (height : Nat) :
    List PegInInfo :=
  block.txdata.filterMap fun tx => B.peginInfo P tx block.blockHash height

/-! ## The monitor -/

/-- The task that monitors Bitcoin: it has not run yet, or it has read the sync status and waits for
a block. -/
inductive MonitorTask where
  | pending (startHeight : Nat)
  | running (isSynced : Bool) (nextHeight : Nat)

/-- The height of the next block. -/
def MonitorTask.nextHeight : MonitorTask → Nat
  | .pending startHeight => startHeight
  | .running _ nextHeight => nextHeight

/-- A node with its monitor. -/
structure Monitored where
  chain : Chain
  /-- the stored `BitcoinScanStartHeight` -/
  scanStart : Option Nat
  task : MonitorTask
  /-- the peg-ins of the blocks streamed so far, which the node does not keep -/
  streamed : List PegInInfo

/-- The loop of the callback over the peg-ins of a block. -/
def queuePegins (isSynced : Bool) : List PegInInfo → Map Txid PegInInfo → Map Txid PegInInfo
  | [], queue => queue
  | pegin :: pegins, queue =>
    if isSynced then queuePegins isSynced pegins (queue.insert pegin.txid pegin) else queue

/-- The height at which the next start scans: that of the oldest queued peg-in, or the next one. -/
def rescanStart (queue : Map Txid PegInInfo) (next : Nat) : Nat :=
  ((queueValues queue).map (·.blockHeight)).min?.getD next

/-- A `u32` result of an addition: the dev profile panics on overflow. -/
def checkedU32 (n : Nat) : Except Failure Nat :=
  if n < 2 ^ 32 then .ok n else .error .panic

lemma checkedU32_eq_ok {n m : Nat} (e : checkedU32 n = .ok m) : m = n := by
  unfold checkedU32 at e
  split at e
  case isTrue => exact (Except.ok.inj e).symm
  case isFalse => cases e

namespace Monitored

/-- The height at which a start would scan; `bitcoinStartHeight` is that of the chain spec. -/
def restartHeight (bitcoinStartHeight : Nat) (m : Monitored) : Nat :=
  m.scanStart.getD bitcoinStartHeight

/-- The node stops and starts again. -/
def restart (P : Primitives) (cfg : ChainConfig) (bitcoinStartHeight : Nat) (m : Monitored) :
    Monitored :=
  { m with
    chain := Event.restart.apply P cfg m.chain
    task := .pending (m.restartHeight bitcoinStartHeight) }

/-- The first step of the task. -/
def start (m : Monitored) : Monitored :=
  match m.task with
  | .pending startHeight =>
    { m with task := .running m.chain.syncStatus.isSynced startHeight }
  | .running _ _ => m

/-- The callback of the monitor, for the peg-ins of the block below the height `next`; `written`
says whether the disk takes the new height. -/
def callback (P : Primitives) (cfg : ChainConfig) (bitcoinStartHeight : Nat) (isSynced : Bool)
    (pegins : List PegInInfo) (next : Nat) (written : Bool) (m : Monitored) : Monitored :=
  let queuedPegins := queuePegins isSynced pegins m.chain.queuedPegins
  let chain := { m.chain with queuedPegins }
  let streamed := m.streamed ++ pegins
  if written then
    ⟨chain, some (rescanStart queuedPegins next), .running isSynced next, streamed⟩
  else
    { m with chain, streamed }.restart P cfg bitcoinStartHeight

/-- The task reads a block. -/
def stream (P : Primitives) (cfg : ChainConfig) (bitcoinStartHeight : Nat)
    (bitcoin : BitcoinChain P) (written : Bool) (m : Monitored) : Monitored :=
  match m.task with
  | .pending _ => m
  | .running isSynced height =>
    match checkedU32 (height + 1) with
    | .error _ => m.restart P cfg bitcoinStartHeight
    | .ok next =>
      let pegins := cfg.bridge.blockPegins P (bitcoin.block height) height
      m.callback P cfg bitcoinStartHeight isSynced pegins next written

/-- Another task of the node calls a function of the chain. -/
def call {α : Type} (P : Primitives) (cfg : ChainConfig) (bitcoinStartHeight : Nat) (x : ChainM α)
    (m : Monitored) : Monitored :=
  match x m.chain with
  | (.error .panic, c) => { m with chain := c }.restart P cfg bitcoinStartHeight
  | (_, c) => { m with chain := c }

end Monitored

/-- What can happen to a node with its monitor. -/
inductive MonitorEvent where
  /-- the monitor starts -/
  | start
  /-- the monitor reads a block -/
  | stream (written : Bool)
  | block (env : Env) (b : SignedConsensusBlock)
  | approval (env : Env) (a : ApproveBlock)
  | produce (env : ProducerEnv) (slot : Nat)
  /-- another task writes the fields that neither validation nor import decides by -/
  | background (syncStatus : SyncStatus) (queuedPow : Option AuxPowHeader)
    (collector : BitcoinSignatureCollector)
  | restart

/-- The node after an event. -/
def MonitorEvent.apply (P : Primitives) (cfg : ChainConfig) (bitcoinStartHeight : Nat)
    (bitcoin : BitcoinChain P) : MonitorEvent → Monitored → Monitored
  | .start, m => m.start
  | .stream written, m => m.stream P cfg bitcoinStartHeight bitcoin written
  | .block env b, m => m.call P cfg bitcoinStartHeight (processBlock P cfg env b)
  | .approval env a, m => m.call P cfg bitcoinStartHeight (processApproval P cfg env a)
  | .produce env slot, m => m.call P cfg bitcoinStartHeight (produceBlock P cfg env slot)
  | .background syncStatus queuedPow collector, m =>
    { m with
      chain := { m.chain with syncStatus, queuedPow, bitcoinSignatureCollector := collector } }
  | .restart, m => m.restart P cfg bitcoinStartHeight

/-! ## What the chain does to the queue -/

/-- The wallet forgets no transaction. -/
def Chain.WalletGrows (c c' : Chain) : Prop :=
  ∀ txid ∈ c.bitcoinWallet.rawTxs, txid ∈ c'.bitcoinWallet.rawTxs

/-- No peg-in is queued, and one that leaves the queue is known to the wallet. -/
structure Chain.Handed (c c' : Chain) : Prop where
  queue : ∀ txid pegin, c'.queuedPegins.lookup txid = some pegin →
    c.queuedPegins.lookup txid = some pegin
  wallet : c.WalletGrows c'
  kept : ∀ txid ∈ c.queuedPegins, txid ∈ c'.queuedPegins ∨ txid ∈ c'.bitcoinWallet.rawTxs

namespace Chain.Handed

lemma refl (c : Chain) : c.Handed c := ⟨fun _ _ h => h, fun _ h => h, fun _ h => .inl h⟩

lemma trans {c₁ c₂ c₃ : Chain} (h : c₁.Handed c₂) (h' : c₂.Handed c₃) : c₁.Handed c₃ where
  queue txid pegin e := h.queue txid pegin (h'.queue txid pegin e)
  wallet txid mem := h'.wallet txid (h.wallet txid mem)
  kept txid mem := by
    rcases h.kept txid mem with hqueue | hwallet
    · exact h'.kept txid hqueue
    · exact .inr (h'.wallet txid hwallet)

/-- The queue stays and the wallet grows. -/
lemma of_queue {c c' : Chain} (hqueue : c'.queuedPegins = c.queuedPegins)
    (hwallet : c.WalletGrows c') : c.Handed c' where
  queue txid pegin e := by rwa [hqueue] at e
  wallet := hwallet
  kept txid mem := .inl (by rwa [hqueue])

end Chain.Handed

/-- What every function of the chain does; a panic can leave a peg-in neither in the queue nor in
the wallet. -/
def handing : Contract Chain Failure where
  ends := Chain.Handed
  fatal := (· = .panic)
  crashes := Chain.WalletGrows
  refl := .refl
  trans := .trans
  crash h h' txid mem := h' txid (h.wallet txid mem)

/-- An update of other fields. -/
lemma handing_modify {f : Chain → Chain} (hqueue : ∀ c, (f c).queuedPegins = c.queuedPegins)
    (hwallet : ∀ c, (f c).bitcoinWallet = c.bitcoinWallet) :
    Action.Meets handing (Action.modify f : ChainM Unit) :=
  .modify fun c => .of_queue (hqueue c) fun txid mem => by rwa [hwallet c]

lemma validateBlock_handing {P cfg env b} : Action.Meets handing (validateBlock P cfg env b) := by
  intro c
  refine .inl ?_
  have fetched : ∀ missing, c.Handed (c.registerUtxos missing) := fun missing =>
    .of_queue rfl fun txid mem => by simpa [Chain.registerUtxos] using mem
  obtain ⟨missing, _, e⟩ | ⟨_, missing, _, e⟩ := @validateBlock_cases P cfg env b c
  all_goals
    rw [e]
    exact fetched missing

lemma onCandidates_handing {α : Type} (x : Action BlockCandidateCache Failure α) :
    Action.Meets handing (ChainM.onCandidates x) :=
  .zoom fun _ => .of_queue rfl fun _ mem => mem

lemma storeCandidate_handing {P cfg b} : Action.Meets handing (storeCandidate P cfg b) := by
  refine .bind .get fun c => .bind (onCandidates_handing _) fun _ => ?_
  split
  · exact .bind (onCandidates_handing _) fun _ => .pure
  · exact .pure

/-- A listed peg-in moves from the queue to the wallet, unless its transaction cannot be fetched. -/
lemma importPegin_handing {P cfg env pegin} (hrpc : env.rpc.Faithful P) :
    Action.Meets handing (importPegin P cfg env pegin) := by
  intro c
  simp only [importPegin, Action.bind_apply, Action.modify_apply, Action.lift_apply]
  cases hfetch : Bridge.fetchTransaction env.rpc pegin.1 pegin.2 with
  | none => exact .inr ⟨⟨_, rfl, rfl⟩, fun _ mem => mem⟩
  | some tx =>
    have htxid : P.txid tx = pegin.1 := hrpc _ _ _ hfetch
    have hgrow : ∀ txid, txid ∈ c.bitcoinWallet.rawTxs ∨ txid = pegin.1 →
        txid ∈ (c.bitcoinWallet.registerPegin P cfg.bitcoinFederation tx).rawTxs := by
      intro txid h
      rw [UtxoManager.registerPegin, UtxoManager.registerOutputsFrom,
        UtxoManager.rawTxs_registerUtxos]
      exact Finmap.mem_insert.mpr (htxid ▸ h.symm)
    refine .inl ⟨fun txid info e => ?_, fun txid mem => hgrow txid (.inl mem), fun txid mem => ?_⟩
    all_goals
      simp only [okOr] at *
      by_cases eq : txid = pegin.1
    · subst eq
      rw [Finmap.lookup_erase] at e
      cases e
    · rwa [Finmap.lookup_erase_ne eq] at e
    · exact .inr (hgrow txid (.inr eq))
    · exact .inl (Finmap.mem_erase.mpr ⟨eq, mem⟩)

lemma importPegs_handing {P cfg env b} (hrpc : env.rpc.Faithful P) :
    Action.Meets handing (importPegs P cfg env b) := by
  refine .bind (.forEach fun pegin _ => importPegin_handing hrpc) fun _ => .bind ?_ fun _ =>
    handing_modify (fun _ => rfl) fun _ => rfl
  cases b.message.pegoutPaymentProposal with
  | none => exact .pure
  | some tx =>
    refine .zoom fun c => .of_queue rfl fun txid mem => ?_
    have known : c.bitcoinWallet.Knows [txid] := by
      intro x hx
      rwa [List.mem_singleton.mp hx]
    exact UtxoManager.registerPegout_keeps c.bitcoinWallet known txid (List.mem_singleton_self _)

/-- Storing a block meets `handing`. -/
lemma storeBlock_handing {P env b ops} : Action.Meets handing (storeBlock P env b ops) := by
  have head : Action.Meets handing (updateHeadRefOps (b.blockRef P) false) :=
    .bind .get fun _ => .ite .pure
      (.bind (handing_modify (fun _ => rfl) fun _ => rfl) fun _ => .pure)
  have finalizes : ∀ pow, Action.Meets handing (finalize P b pow) := fun pow =>
    .bind (handing_modify (fun _ => rfl) fun _ => rfl) fun _ => .bind .get fun _ => .ite .fail .pure
  have commits : ∀ ops, Action.Meets handing (commitImport env b ops) := fun ops =>
    .ite (handing_modify (fun _ => rfl) fun _ => rfl) .fail
  have appends : Action.Meets handing (Action.modify fun c : Chain =>
      { c with blockHashCache := c.blockHashCache ++ [b.canonicalRoot P] } : ChainM Unit) :=
    handing_modify (fun _ => rfl) fun _ => rfl
  have updates : Action.Meets handing (updateBlockHashCache P b) := by
    refine .ite .pure ?_
    cases b.message.auxpowHeader with
    | none => exact appends
    | some pow =>
      exact .bind .get fun _ => .bind .lift fun _ =>
        .bind (handing_modify (fun _ => rfl) fun _ => rfl) fun _ => appends
  refine .bind head fun _ => ?_
  cases b.message.auxpowHeader with
  | none => exact .bind .pure fun _ => .bind (commits _) fun _ => updates
  | some pow => exact .bind (finalizes pow) fun _ => .bind (commits _) fun _ => updates

lemma maybeAcceptBlock_handing {P cfg env hash} (hrpc : env.rpc.Faithful P) :
    Action.Meets handing (maybeAcceptBlock P cfg env hash) := by
  have imports : ∀ b, Action.Meets handing (importVerifiedBlock P cfg env b) := fun b =>
    .bind .lift fun _ => .bind .lift fun _ => .bind .get fun _ => .bind .lift fun _ =>
      .ite (.bind (importPegs_handing hrpc) fun _ => storeBlock_handing) storeBlock_handing
  refine .bind .get fun c => ?_
  split
  · exact .fail
  · exact .bind .lift fun _ =>
      .ite (.bind (handing_modify (fun _ => rfl) fun _ => rfl) fun _ => imports _) .pure

lemma processBlock_handing {P cfg env b} (hrpc : env.rpc.Faithful P) :
    Action.Meets handing (processBlock P cfg env b) :=
  .bind validateBlock_handing fun _ => .bind storeCandidate_handing fun _ =>
    .bind (maybeAcceptBlock_handing hrpc) fun _ => .pure

lemma processApproval_handing {P cfg env a} (hrpc : env.rpc.Faithful P) :
    Action.Meets handing (processApproval P cfg env a) :=
  .bind .get fun _ => .bind (onCandidates_handing _) fun _ => maybeAcceptBlock_handing hrpc

/-- A logged error changes nothing about the state. -/
lemma logErr_handing {α : Type} {x : ChainM α} (hx : Action.Meets handing x) :
    Action.Meets handing x.logErr := by
  intro c
  have h := hx c
  unfold ChainM.logErr
  rcases hc : x c with ⟨f | a, c'⟩
  · rw [hc] at h
    cases f with
    | error e => exact .inl (by simpa [handing] using h)
    | panic => simpa [handing] using h
    | diverge => exact .inl (by simpa [handing] using h)
  · rw [hc] at h
    simpa using h

lemma rollbackHead_handing {P env height} : Action.Meets handing (rollbackHead P env height) := by
  intro c
  refine .inl ?_
  obtain e | ⟨target, powBlock, _, _, e⟩ := @rollbackHead_cases P env height c
  · rw [e]
    exact .refl c
  · rw [e]
    exact .of_queue rfl fun _ mem => mem

/-- Filling a block drops only peg-ins that the wallet knows from the queue. -/
lemma fillPegins_handing {balances} : Action.Meets handing (fillPegins balances) := by
  refine .bind .get fun _ => .bind (.modify fun c => ?_) fun _ => .bind .lift fun _ =>
    .bind .lift fun _ => .pure
  have hlookup : ∀ txid, c.removeProcessed.queuedPegins.lookup txid =
      if txid ∈ (ordered c.queuedPegins.keys).filter fun txid =>
        (c.bitcoinWallet.getTx txid).isSome then none else c.queuedPegins.lookup txid :=
    fun txid => lookup_foldl_erase
  refine ⟨fun txid pegin e => ?_, fun _ mem => mem, fun txid mem => ?_⟩
  · rw [hlookup] at e
    split at e
    case isTrue => cases e
    case isFalse => exact e
  · cases hknown : c.bitcoinWallet.getTx txid with
    | some tx => exact .inr (Finmap.mem_of_lookup_eq_some hknown)
    | none =>
      refine .inl (Finmap.lookup_isSome.mp ?_)
      rw [hlookup, if_neg (by simp [hknown]), Finmap.lookup_isSome]
      exact mem

/-- Producing a block meets `handing`. -/
lemma produceBlock_handing {P cfg env slot} (hrpc : env.rpc.Faithful P) :
    Action.Meets handing (produceBlock P cfg env slot) := by
  have builds : ∀ prev head, Action.Meets handing (proposeOn P cfg env slot prev head) := by
    intro prev head
    refine .bind .get fun _ => .bind .lift fun _ => .bind .lift fun _ =>
      .bind fillPegins_handing fun (balances, pegins) => ?_
    simp only
    split
    · exact .pure
    · exact .fail
    · exact .bind .lift fun _ => .bind .lift fun _ => .bind .lift fun _ => .pure
  have proposes : Action.Meets handing (proposeBlock P cfg env slot) := by
    refine .bind .get fun c => .ite .pure ?_
    split
    · exact builds _ _
    · exact .bind .lift fun _ => .bind .lift fun _ => .ite (builds _ _)
        (.bind (logErr_handing rollbackHead_handing) fun _ => .pure)
  refine .bind proposes fun proposed => ?_
  cases proposed with
  | none => exact .pure
  | some b =>
    refine .bind (logErr_handing (processBlock_handing hrpc)) fun approval => ?_
    cases approval with
    | none => exact .pure
    | some approval => exact .pure

/-! ## What the monitor does to the queue -/

lemma Bridge.peginInfo_eq_some {P tx blockHash height pegin} {B : Bridge}
    (e : B.peginInfo P tx blockHash height = some pegin) :
    pegin.txid = P.txid tx ∧ pegin.blockHeight = height := by
  simp only [Bridge.peginInfo, bind, Option.bind_eq_some_iff] at e
  obtain ⟨_, _, _, _, e⟩ := e
  cases e
  exact ⟨rfl, rfl⟩

lemma Bridge.mem_blockPegins {P height pegin} {B : Bridge} {block : BitcoinBlock}
    (mem : pegin ∈ B.blockPegins P block height) :
    (∃ tx ∈ block.txdata, pegin.txid = P.txid tx) ∧ pegin.blockHeight = height := by
  obtain ⟨tx, htx, e⟩ := List.mem_filterMap.mp mem
  obtain ⟨htxid, hheight⟩ := peginInfo_eq_some e
  exact ⟨⟨tx, htx, htxid⟩, hheight⟩

/-- The peg-in is one of the block at its height. -/
def BitcoinChain.Deposits {P : Primitives} (bitcoin : BitcoinChain P) (B : Bridge)
    (pegin : PegInInfo) : Prop :=
  pegin ∈ B.blockPegins P (bitcoin.block pegin.blockHeight) pegin.blockHeight

lemma BitcoinChain.Deposits.of_mem {P B height pegin} {bitcoin : BitcoinChain P}
    (mem : pegin ∈ B.blockPegins P (bitcoin.block height) height) : bitcoin.Deposits B pegin := by
  rw [Deposits, (Bridge.mem_blockPegins mem).2]
  exact mem

/-- Two peg-ins of one transaction lie at one height. -/
lemma BitcoinChain.Deposits.height_eq {P B pegin pegin'} {bitcoin : BitcoinChain P}
    (h : bitcoin.Deposits B pegin) (h' : bitcoin.Deposits B pegin')
    (e : pegin.txid = pegin'.txid) : pegin.blockHeight = pegin'.blockHeight := by
  obtain ⟨⟨tx, htx, htxid⟩, _⟩ := Bridge.mem_blockPegins h
  obtain ⟨⟨tx', htx', htxid'⟩, _⟩ := Bridge.mem_blockPegins h'
  exact bitcoin.unique htx htx' (htxid.symm.trans (e.trans htxid'))

variable {queue : Map Txid PegInInfo}

lemma mem_queuePegins {isSynced pegins txid} (mem : txid ∈ queue) :
    txid ∈ queuePegins isSynced pegins queue := by
  induction pegins generalizing queue with
  | nil => exact mem
  | cons pegin pegins ih =>
    unfold queuePegins
    split
    · exact ih (Finmap.mem_insert.mpr (.inr mem))
    · exact mem

lemma mem_queuePegins_synced {pegins pegin} (mem : pegin ∈ pegins) :
    pegin.txid ∈ queuePegins true pegins queue := by
  induction pegins generalizing queue with
  | nil => cases mem
  | cons pegin' pegins ih =>
    rw [queuePegins, if_pos rfl]
    rcases List.mem_cons.mp mem with rfl | mem
    · exact mem_queuePegins (Finmap.mem_insert.mpr (.inl rfl))
    · exact ih mem

lemma lookup_queuePegins {isSynced pegins txid pegin}
    (e : (queuePegins isSynced pegins queue).lookup txid = some pegin) :
    queue.lookup txid = some pegin ∨ pegin ∈ pegins ∧ pegin.txid = txid := by
  induction pegins generalizing queue with
  | nil => exact .inl e
  | cons pegin' pegins ih =>
    unfold queuePegins at e
    split at e
    case isFalse => exact .inl e
    case isTrue =>
      rcases ih e with e | ⟨mem, e⟩
      · rcases lookup_insert_eq_some.mp e with ⟨rfl, rfl⟩ | ⟨_, e⟩
        · exact .inr ⟨List.mem_cons_self, rfl⟩
        · exact .inl e
      · exact .inr ⟨List.mem_cons_of_mem _ mem, e⟩

/-- The next scan starts at or below every queued peg-in. -/
lemma rescanStart_le {next txid pegin} (e : queue.lookup txid = some pegin) :
    rescanStart queue next ≤ pegin.blockHeight := by
  have mem : pegin.blockHeight ∈ (queueValues queue).map (·.blockHeight) :=
    List.mem_map_of_mem (mem_queueValues.mpr ⟨txid, e⟩)
  unfold rescanStart
  cases hmin : ((queueValues queue).map (·.blockHeight)).min? with
  | none =>
    rw [List.min?_eq_none_iff.mp hmin] at mem
    cases mem
  | some height => exact (List.min?_eq_some_iff.mp hmin).2 _ mem

/-- The next scan starts at or below the next height, if all queued peg-ins lie below it. -/
lemma rescanStart_le_next {next}
    (h : ∀ txid pegin, queue.lookup txid = some pegin → pegin.blockHeight < next) :
    rescanStart queue next ≤ next := by
  unfold rescanStart
  cases hmin : ((queueValues queue).map (·.blockHeight)).min? with
  | none => exact le_rfl
  | some height =>
    obtain ⟨pegin, mem, rfl⟩ := List.mem_map.mp (List.min?_eq_some_iff.mp hmin).1
    obtain ⟨txid, e⟩ := mem_queueValues.mp mem
    exact (h txid pegin e).le

/-! ## Runs -/

/-- A node that starts on a store and a wallet, with a stored height or none. -/
def Monitored.boot (bitcoinStartHeight : Nat) (scanStart : Option Nat) (s : Storage)
    (w : UtxoManager) : Monitored where
  chain := Chain.new s w
  scanStart
  task := .pending (scanStart.getD bitcoinStartHeight)
  streamed := []

/-- The events in which the Bitcoin node is faithful and a block is read in a state with `A`. -/
def MonitorEvent.Allowed (P : Primitives) (A : Monitored → Prop) (m : Monitored) :
    MonitorEvent → Prop
  | .stream _ => A m
  | .block env _ => env.rpc.Faithful P
  | .approval env _ => env.rpc.Faithful P
  | .produce env _ => env.rpc.Faithful P
  | _ => True

/-- The runs of a node with its monitor. -/
abbrev MonitorRun (P : Primitives) (cfg : ChainConfig) (bitcoinStartHeight : Nat)
    (bitcoin : BitcoinChain P) (A : Monitored → Prop) : Monitored → Monitored → Prop :=
  Run (MonitorEvent.apply P cfg bitcoinStartHeight bitcoin) (MonitorEvent.Allowed P A)

/-- Every streamed peg-in is queued, or known to the wallet, or the next start streams it again. -/
def Monitored.Remembered (bitcoinStartHeight : Nat) (m : Monitored) : Prop :=
  ∀ pegin ∈ m.streamed, pegin.txid ∈ m.chain.queuedPegins ∨
    pegin.txid ∈ m.chain.bitcoinWallet.rawTxs ∨
    m.restartHeight bitcoinStartHeight ≤ pegin.blockHeight

/-- A monitor that started on a node that was not synced has nothing to ignore: the peg-ins of the
next block are queued or known to the wallet. -/
def Monitored.Attentive {P : Primitives} (cfg : ChainConfig) (bitcoin : BitcoinChain P)
    (m : Monitored) : Prop :=
  ∀ height, m.task = .running false height →
    ∀ pegin ∈ cfg.bridge.blockPegins P (bitcoin.block height) height,
      pegin.txid ∈ m.chain.queuedPegins ∨ pegin.txid ∈ m.chain.bitcoinWallet.rawTxs

/-- The invariant: what was streamed and is neither queued nor known is still ahead of the stream,
and the stored height lies at or below the stream and the queue. -/
structure Watched {P : Primitives} (cfg : ChainConfig) (bitcoinStartHeight : Nat)
    (bitcoin : BitcoinChain P) (m : Monitored) : Prop where
  queued : ∀ txid pegin, m.chain.queuedPegins.lookup txid = some pegin →
    pegin.txid = txid ∧ bitcoin.Deposits cfg.bridge pegin ∧
      m.restartHeight bitcoinStartHeight ≤ pegin.blockHeight ∧
      pegin.blockHeight < m.task.nextHeight
  seen : ∀ pegin ∈ m.streamed, bitcoin.Deposits cfg.bridge pegin
  start_le : m.restartHeight bitcoinStartHeight ≤ m.task.nextHeight
  covered : ∀ pegin ∈ m.streamed, pegin.txid ∈ m.chain.queuedPegins ∨
    pegin.txid ∈ m.chain.bitcoinWallet.rawTxs ∨ m.task.nextHeight ≤ pegin.blockHeight

namespace Watched

variable {P : Primitives} {cfg : ChainConfig} {bitcoinStartHeight : Nat} {bitcoin : BitcoinChain P}
  {m : Monitored}

lemma remembered (h : Watched cfg bitcoinStartHeight bitcoin m) :
    m.Remembered bitcoinStartHeight := by
  intro pegin mem
  exact (h.covered pegin mem).imp_right fun hw => hw.imp_right h.start_le.trans

/-- Without the queue, a peg-in is known to the wallet or lies ahead of the next start. -/
lemma rescanned (h : Watched cfg bitcoinStartHeight bitcoin m) {pegin} (mem : pegin ∈ m.streamed) :
    pegin.txid ∈ m.chain.bitcoinWallet.rawTxs ∨
      m.restartHeight bitcoinStartHeight ≤ pegin.blockHeight := by
  rcases h.remembered pegin mem with hqueue | hrest
  · obtain ⟨pegin', e⟩ := Option.isSome_iff_exists.mp (Finmap.lookup_isSome.mpr hqueue)
    obtain ⟨htxid, hdeposit, hle, _⟩ := h.queued _ _ e
    rw [(h.seen pegin mem).height_eq hdeposit htxid.symm]
    exact .inr hle
  · exact hrest

/-- A restart, from any state in which the peg-ins need no queue. -/
lemma of_restart (seen : ∀ pegin ∈ m.streamed, bitcoin.Deposits cfg.bridge pegin)
    (rescanned : ∀ pegin ∈ m.streamed, pegin.txid ∈ m.chain.bitcoinWallet.rawTxs ∨
      m.restartHeight bitcoinStartHeight ≤ pegin.blockHeight) :
    Watched cfg bitcoinStartHeight bitcoin (m.restart P cfg bitcoinStartHeight) where
  queued txid pegin e := by
    simp [Monitored.restart, Event.apply, Chain.new] at e
  seen := seen
  start_le := le_rfl
  covered pegin mem := .inr (rescanned pegin mem)

section

variable (h : Watched cfg bitcoinStartHeight bitcoin m)

include h

lemma restart :
    Watched cfg bitcoinStartHeight bitcoin (m.restart P cfg bitcoinStartHeight) :=
  of_restart h.seen fun _ mem => h.rescanned mem

lemma start :
    Watched cfg bitcoinStartHeight bitcoin m.start := by
  unfold Monitored.start
  cases htask : m.task with
  | running => exact h
  | pending startHeight =>
    have hnext : m.task.nextHeight = startHeight := by rw [htask]; rfl
    refine ⟨fun txid pegin e => ?_, h.seen, ?_, fun pegin mem => ?_⟩
    · exact hnext ▸ h.queued txid pegin e
    · exact hnext ▸ h.start_le
    · exact hnext ▸ h.covered pegin mem

/-- The peg-ins that a function of the chain hands on stay covered. -/
lemma handed {c : Chain} (hc : m.chain.Handed c) :
    Watched cfg bitcoinStartHeight bitcoin { m with chain := c } where
  queued txid pegin e := h.queued txid pegin (hc.queue txid pegin e)
  seen := h.seen
  start_le := h.start_le
  covered pegin mem := by
    rcases h.covered pegin mem with hqueue | hwallet | hahead
    · exact (hc.kept _ hqueue).imp_right .inl
    · exact .inr (.inl (hc.wallet _ hwallet))
    · exact .inr (.inr hahead)

/-- A call of the chain. -/
lemma call {α : Type} {x : ChainM α} (hx : Action.Meets handing x) :
    Watched cfg bitcoinStartHeight bitcoin (m.call P cfg bitcoinStartHeight x) := by
  have hc := hx m.chain
  unfold Monitored.call
  split
  case h_1 c e =>
    -- the process ends in the middle of the call
    have grows : m.chain.WalletGrows c := by
      rw [e] at hc
      rcases hc with hend | ⟨_, hcrash⟩
      · exact hend.wallet
      · exact hcrash
    exact of_restart h.seen fun pegin mem => (h.rescanned mem).imp_left (grows _)
  case h_2 r c hr e =>
    rw [e] at hc
    rcases hc with hend | ⟨⟨f, hf, hfatal⟩, _⟩
    · exact h.handed hend
    · exact (hr (hf.trans (congrArg _ hfatal))).elim

/-- The peg-ins before and after a block was read are those of the Bitcoin chain. -/
lemma seen_append {height} :
    ∀ pegin ∈ m.streamed ++ cfg.bridge.blockPegins P (bitcoin.block height) height,
      bitcoin.Deposits cfg.bridge pegin := by
  intro pegin mem
  rcases List.mem_append.mp mem with mem | mem
  · exact h.seen pegin mem
  · exact .of_mem mem

/-- The queue after the block at the height of the stream was read. -/
lemma queued_callback {isSynced : Bool} {height : Nat} (htask : m.task = .running isSynced height)
    {txid pegin}
    (e : (queuePegins isSynced (cfg.bridge.blockPegins P (bitcoin.block height) height)
      m.chain.queuedPegins).lookup txid = some pegin) :
    pegin.txid = txid ∧ bitcoin.Deposits cfg.bridge pegin ∧ pegin.blockHeight < height + 1 := by
  rcases lookup_queuePegins e with e | ⟨mem, htxid⟩
  · obtain ⟨htxid, hdeposit, _, lt⟩ := h.queued txid pegin e
    rw [htask] at lt
    exact ⟨htxid, hdeposit, Nat.lt_add_one_of_lt lt⟩
  · have hheight := (Bridge.mem_blockPegins mem).2
    exact ⟨htxid, .of_mem mem, by omega⟩

end

/-- A peg-in of the block at the height of the stream is queued, or it was covered before. -/
lemma covered_callback {isSynced : Bool} {height : Nat} (htask : m.task = .running isSynced height)
    (hm : m.Attentive cfg bitcoin) {pegin}
    (mem : pegin ∈ cfg.bridge.blockPegins P (bitcoin.block height) height) :
    pegin.txid ∈ queuePegins isSynced (cfg.bridge.blockPegins P (bitcoin.block height) height)
      m.chain.queuedPegins ∨ pegin.txid ∈ m.chain.bitcoinWallet.rawTxs := by
  cases isSynced with
  | true => exact .inl (mem_queuePegins_synced mem)
  | false => exact (hm height htask pegin mem).imp_left mem_queuePegins

/-- The callback for the block at the height of the stream. -/
lemma callback (h : Watched cfg bitcoinStartHeight bitcoin m) {isSynced : Bool} {height : Nat}
    (htask : m.task = .running isSynced height) (hm : m.Attentive cfg bitcoin) (written : Bool) :
    Watched cfg bitcoinStartHeight bitcoin (m.callback P cfg bitcoinStartHeight isSynced
      (cfg.bridge.blockPegins P (bitcoin.block height) height) (height + 1) written) := by
  have hnext : m.task.nextHeight = height := by rw [htask]; rfl
  have hseen := @seen_append P cfg bitcoinStartHeight bitcoin m h height
  unfold Monitored.callback
  split
  case isFalse =>
    -- the height is not written, and the node starts again
    refine of_restart hseen fun pegin mem => ?_
    rcases List.mem_append.mp mem with mem | mem
    · exact h.rescanned mem
    · rw [(Bridge.mem_blockPegins mem).2, ← hnext]
      exact .inr h.start_le
  case isTrue =>
    constructor
    case queued =>
      intro txid pegin e
      obtain ⟨htxid, hdeposit, lt⟩ := h.queued_callback htask e
      exact ⟨htxid, hdeposit, rescanStart_le e, lt⟩
    case seen => exact hseen
    case start_le => exact rescanStart_le_next fun _ _ e => (h.queued_callback htask e).2.2
    case covered =>
      intro pegin mem
      rw [← or_assoc]
      rcases List.mem_append.mp mem with mem | mem
      · rcases h.covered pegin mem with hqueue | hwallet | hahead
        · exact .inl (.inl (mem_queuePegins hqueue))
        · exact .inl (.inr hwallet)
        · by_cases eq : pegin.blockHeight = height
          · have hdeposit := h.seen pegin mem
            rw [BitcoinChain.Deposits, eq] at hdeposit
            exact .inl (covered_callback htask hm hdeposit)
          · refine .inr ?_
            change height + 1 ≤ pegin.blockHeight
            omega
      · exact .inl (covered_callback htask hm mem)

lemma stream (h : Watched cfg bitcoinStartHeight bitcoin m) (hm : m.Attentive cfg bitcoin)
    (written : Bool) :
    Watched cfg bitcoinStartHeight bitcoin
      (m.stream P cfg bitcoinStartHeight bitcoin written) := by
  unfold Monitored.stream
  split
  case h_1 => exact h
  case h_2 isSynced height htask =>
    split
    case h_1 => exact h.restart
    case h_2 next hchecked =>
      cases checkedU32_eq_ok hchecked
      exact h.callback htask hm written

lemma event (h : Watched cfg bitcoinStartHeight bitcoin m) {e : MonitorEvent}
    (ok : e.Allowed P (Monitored.Attentive cfg bitcoin) m) :
    Watched cfg bitcoinStartHeight bitcoin (e.apply P cfg bitcoinStartHeight bitcoin m) := by
  cases e with
  | start => exact h.start
  | stream written => exact h.stream ok written
  | block env b => exact h.call (processBlock_handing ok)
  | approval env a => exact h.call (processApproval_handing ok)
  | produce env slot => exact h.call (produceBlock_handing ok)
  | background => exact h.handed (.of_queue rfl fun _ mem => mem)
  | restart => exact h.restart

end Watched

/-- In every run in which a monitor that started on a node that was not synced reads only blocks
whose peg-ins are queued or known to the wallet, no peg-in is forgotten. -/
theorem run_remembered {P : Primitives} {cfg : ChainConfig} {bitcoinStartHeight : Nat}
    {bitcoin : BitcoinChain P} {scanStart : Option Nat} {s : Storage} {w : UtxoManager}
    {m : Monitored} (run : MonitorRun P cfg bitcoinStartHeight bitcoin (·.Attentive cfg bitcoin)
      (.boot bitcoinStartHeight scanStart s w) m) : m.Remembered bitcoinStartHeight := by
  have init : Watched cfg bitcoinStartHeight bitcoin (.boot bitcoinStartHeight scanStart s w) := by
    refine ⟨fun txid pegin e => ?_, nofun, le_rfl, nofun⟩
    simp [Monitored.boot, Chain.new] at e
  exact (run.invariant init fun _ _ h ok => h.event ok).remembered

/-- A Bitcoin chain with a deposit of 1000 satoshi in its first block. -/
def BitcoinChain.toy : BitcoinChain .toy where
  block height :=
    ⟨[], if height = 0 then [⟨2, 0, [], [⟨1000, [0x51]⟩, ⟨0, [0x6a]⟩]⟩] else []⟩
  unique := by
    intro height height' tx tx' mem mem' _
    have first : ∀ {height : Nat} {tx l}, tx ∈ (if height = 0 then l else ([] : List Transaction)) →
        height = 0 := by
      intro height tx l mem
      by_contra ne
      rw [if_neg ne] at mem
      cases mem
    rw [first mem, first mem']

/-- A validator with its monitor after some events. -/
def Monitored.toyAfter (events : List MonitorEvent) : Monitored :=
  events.foldl (fun m e => e.apply .toy (.toy 1 0) 0 .toy m) (.boot 0 none .toy .empty)

/-- A deposit is read, imported and left behind by the stored height. -/
theorem run_remembered_imported :
    let m := Monitored.toyAfter [.start, .stream true,
      .block .toy (.toyPegin [[1]] [⟨[7], 10000⟩]), .stream true]
    m.streamed.map (·.txid) = [[1]] ∧ m.scanStart = some 2 ∧
      [1] ∈ m.chain.bitcoinWallet.rawTxs ∧ m.Remembered 0 := by
  intro m
  have attentive : ∀ {m : Monitored} {height}, m.task = .running true height →
      m.Attentive (.toy 1 0) .toy := by
    intro m height htask height' htask'
    rw [htask] at htask'
    cases htask'
  have run : MonitorRun .toy (.toy 1 0) 0 .toy (·.Attentive (.toy 1 0) .toy)
      (.boot 0 none .toy .empty) m :=
    .snoc (.snoc (.snoc (.snoc .refl MonitorEvent.start trivial)
      (MonitorEvent.stream true) (attentive rfl))
      (MonitorEvent.block .toy (.toyPegin [[1]] [⟨[7], 10000⟩])) BitcoinRpc.toy_faithful)
      (MonitorEvent.stream true) (attentive rfl)
  exact ⟨by decide, by decide, by decide, run_remembered run⟩

/-- The monitor starts before the node is synced and reads the deposit. -/
theorem run_remembered_fails :
    ¬ ∀ (P : Primitives) (cfg : ChainConfig) (bitcoinStartHeight : Nat) (bitcoin : BitcoinChain P)
      (scanStart : Option Nat) (s : Storage) (w : UtxoManager) (m : Monitored),
      MonitorRun P cfg bitcoinStartHeight bitcoin (fun _ => True)
        (.boot bitcoinStartHeight scanStart s w) m → m.Remembered bitcoinStartHeight := by
  intro all
  let m := Monitored.toyAfter [.background .inProgress none .empty, .start, .stream true]
  have run : MonitorRun .toy (.toy 1 0) 0 .toy (fun _ => True) (.boot 0 none .toy .empty) m :=
    .snoc (.snoc (.snoc .refl (MonitorEvent.background .inProgress none .empty) trivial)
      MonitorEvent.start trivial) (MonitorEvent.stream true) trivial
  have streamed : (⟨[1], [], 1000, [7], 0⟩ : PegInInfo) ∈ m.streamed := by decide
  have forgotten : [1] ∉ m.chain.queuedPegins ∧ [1] ∉ m.chain.bitcoinWallet.rawTxs ∧
      m.restartHeight 0 = 1 := by decide
  obtain ⟨hqueue, hwallet, hstart⟩ := forgotten
  rcases all _ _ _ _ _ _ _ m run _ streamed with h | h | h
  · exact hqueue h
  · exact hwallet h
  · rw [hstart] at h
    exact absurd h (by decide)

end Alys
