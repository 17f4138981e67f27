import Alys.Chain.Produce
import Alys.Network.Codec

/-!
# Syncing with peers

Model of `RpcCircuitBreaker`, `send_blocks_by_range_with_retry`,
`send_blocks_by_range_with_peer_fallback` and `sync` in `app/src/chain.rs`.

The initial sync, the gossip loop and the slot worker call `sync` in tasks of their own, and all of
them act on one node. A `SyncTask` is the await at which a call stands, with the local variables
that are live there; between two steps of a call the other calls and the rest of the node may act.
Processing a block is one step, as is a rollback.

The slot worker also produces blocks. A producer whose execution layer lost the payload of the head
lets go of the lock on the head before it rolls back, and stands where a failed call of `sync`
stands. A producer that goes on with `sync` is followed by a call.

`log` is not part of the node: it records what the properties of whole runs count.
-/

namespace Alys
open Lib

/-! ## The circuit breaker -/

/-- `RpcCircuitBreaker`, with times in milliseconds. -/
structure RpcCircuitBreaker where
  failureCount : Nat
  lastFailureTime : Option Nat
  isOpen : Bool
  failureThreshold : Nat
  resetTimeout : Nat

namespace RpcCircuitBreaker

def new (failureThreshold resetTimeout : Nat) : RpcCircuitBreaker :=
  ⟨0, none, false, failureThreshold, resetTimeout⟩

def recordFailure (now : Nat) (cb : RpcCircuitBreaker) : RpcCircuitBreaker :=
  { cb with
    failureCount := cb.failureCount + 1
    lastFailureTime := some now
    isOpen := if cb.failureThreshold ≤ cb.failureCount + 1 then true else cb.isOpen }

def recordSuccess (cb : RpcCircuitBreaker) : RpcCircuitBreaker :=
  { cb with failureCount := 0, lastFailureTime := none, isOpen := false }

/-- Enough time has passed since the last failure. -/
def timedOut (now : Nat) (cb : RpcCircuitBreaker) : Bool :=
  cb.lastFailureTime.any fun lastFailure => cb.resetTimeout ≤ now - lastFailure

/-- `RpcCircuitBreaker::can_attempt`; a breaker that has been open for long enough is closed. -/
def canAttempt (now : Nat) (cb : RpcCircuitBreaker) : Bool × RpcCircuitBreaker :=
  if !cb.isOpen then (true, cb)
  else if cb.timedOut now then (true, { cb with isOpen := false, failureCount := 0 })
  else (false, cb)

end RpcCircuitBreaker

/-! ## The awaits of a call -/

/-- `max_retries_per_peer`, as `sync` passes it. -/
def maxRetries : Nat := 3

/-- `MAX_BACKOFF`. -/
def maxBackoff : Nat := 30000

/-- The `block_count` of every request. -/
def blockCount : Nat := 1024

/-- Where a call of `sync` stands. `head` is the height of the head when the request was prepared;
the request is for the blocks from the next height on. `rest` are the peers that are left when
`peer` has failed. -/
inductive SyncTask where
  /-- the loop of `wait_for_peers` -/
  | waitForPeers
  /-- before the head is read -/
  | prepareRequest
  /-- before the peers are read -/
  | selectPeers (head : Nat)
  /-- before the circuit breaker is asked -/
  | checkBreaker (head : Nat) (peer : PeerId) (rest : List PeerId)
  /-- `network.send_rpc` -/
  | sendRpc (head : Nat) (peer : PeerId) (rest : List PeerId) (attempt backoff : Nat)
  /-- between two attempts -/
  | sleep (head : Nat) (peer : PeerId) (rest : List PeerId) (attempt backoff wakeAt : Nat)
  /-- before a success is recorded -/
  | recordSuccess (head : Nat)
  /-- before a failure is recorded -/
  | recordFailure (head : Nat) (rest : List PeerId)
  /-- `receive_stream.recv` -/
  | receive (head blocksProcessed : Nat)
  /-- before `rollback_head` -/
  | rollBack (head : Nat)
  /-- before the status is set -/
  | complete
  /-- the call has returned, or was not made yet -/
  | returned
  /-- the call panicked or hangs -/
  | crashed
  deriving DecidableEq

/-- The loop of `send_blocks_by_range_with_peer_fallback`: the next peer, or the error with which
`sync` returns. -/
def SyncTask.tryPeers (head : Nat) : List PeerId → SyncTask
  | [] => .returned
  | peer :: rest => .checkBreaker head peer rest

/-- An attempt of `send_blocks_by_range_with_retry` has failed, the one with index `attempt`. -/
def SyncTask.retry (now head : Nat) (peer : PeerId) (rest : List PeerId) (attempt backoff : Nat) :
    SyncTask :=
  if attempt + 1 < maxRetries then
    .sleep head peer rest (attempt + 1) (min (backoff * 2) maxBackoff) (now + backoff)
  else .recordFailure head rest

/-- An error that `sync` returns on without a rollback. -/
def Error.isBenign : Error → Bool
  | .candidateCacheError => true
  | .federationError (.bitcoinBlockNotFound _) => true
  | _ => false

/-- How `sync` goes on after `process_block`. -/
def SyncTask.processed (head blocksProcessed : Nat) :
    Except Failure (Option IndividualApproval) → SyncTask
  | .ok _ => .receive head (blocksProcessed + 1)
  | .error .panic => .crashed
  | .error .diverge => .crashed
  | .error (.error e) =>
    if e = .processGenesis then .receive head (blocksProcessed + 1)
    else if e.isBenign then .returned
    -- the head is already at 0
    else if head = 0 then .returned
    else .rollBack head

/-! ## The node and its calls -/

/-- What is recorded of a run. -/
inductive SyncMark where
  /-- a failure was recorded in the circuit breaker, at a time -/
  | failed (time : Nat)
  | succeeded
  | rolledBack
  deriving DecidableEq

/-- The fields of `Chain` that `sync` uses, with the calls of it. -/
structure SyncNode (ι : Type) where
  chain : Chain
  circuitBreaker : RpcCircuitBreaker
  peers : List PeerId
  now : Nat
  calls : ι → SyncTask
  /-- the latest last -/
  log : List SyncMark

inductive SyncEvent (ι : Type) where
  /-- time passes -/
  | tick (elapsed : Nat)
  /-- `listen_for_peer_discovery` -/
  | discovered (peers : List PeerId)
  /-- another task of the node acts -/
  | node (e : Event)
  /-- `produce_block` is called -/
  | produce (i : ι) (env : ProducerEnv) (slot : Nat)
  /-- `sync` is called -/
  | call (i : ι)
  /-- a lock was taken, or a sleep is over -/
  | resume (i : ι) (env : Env)
  /-- `send_rpc` returned a stream or an error -/
  | rpc (i : ι) (ok : Bool)
  /-- the stream gave a response or has ended -/
  | recv (i : ι) (env : Env) (response : Option (Rpc.Wire.RPCResponse SignedConsensusBlock))

/-- An event of a call, of the peers or of the clock. -/
def SyncEvent.isOwn {ι : Type} : SyncEvent ι → Bool
  | .node _ => false
  | _ => true

namespace SyncNode

variable {ι : Type} [DecidableEq ι] (P : Primitives) (cfg : ChainConfig)

/-- A node before the first call, with the circuit breaker of `Chain::new`. -/
def start (chain : Chain) : SyncNode ι :=
  ⟨chain, .new 3 60000, [], 0, fun _ => .returned, []⟩

/-- A call goes on. -/
def goto (i : ι) (task : SyncTask) (s : SyncNode ι) : SyncNode ι :=
  { s with calls := Function.update s.calls i task }

variable {s : SyncNode ι}

lemma calls_goto_self {i : ι} {task : SyncTask} : (s.goto i task).calls i = task :=
  Function.update_self ..

lemma calls_goto_of_ne {i j : ι} {task : SyncTask} (h : j ≠ i) :
    (s.goto i task).calls j = s.calls j :=
  Function.update_of_ne h ..

/-- The start of `sync`. -/
def call (i : ι) (s : SyncNode ι) : SyncNode ι :=
  match s.calls i with
  | .returned =>
    goto i .waitForPeers { s with chain := { s.chain with syncStatus := .inProgress } }
  | _ => s

/-- `produce_block`, up to a rollback. -/
def produce (i : ι) (env : ProducerEnv) (slot : Nat) (s : SyncNode ι) : SyncNode ι :=
  match s.calls i with
  | .returned =>
    match s.chain.lostHead env with
    | some prev => s.goto i (.rollBack prev.number)
    | none => { s with chain := (produceBlock P cfg env slot s.chain).2 }
  | _ => s

/-- The step of a call that needs nothing but its turn. -/
def resume (i : ι) (env : Env) (s : SyncNode ι) : SyncNode ι :=
  match s.calls i with
  | .waitForPeers => if s.peers.isEmpty then s else s.goto i .prepareRequest
  | .prepareRequest => s.goto i (.selectPeers ((s.chain.head.map (·.height)).getD 0))
  | .selectPeers head => s.goto i (.tryPeers head s.peers)
  | .checkBreaker head peer rest =>
    goto i
      (if (s.circuitBreaker.canAttempt s.now).1 then .sendRpc head peer rest 0 1000 else .returned)
      { s with circuitBreaker := (s.circuitBreaker.canAttempt s.now).2 }
  | .sleep head peer rest attempt backoff wakeAt =>
    if s.now < wakeAt then s else s.goto i (.sendRpc head peer rest attempt backoff)
  | .recordSuccess head =>
    goto i (.receive head 0)
      { s with
        circuitBreaker := s.circuitBreaker.recordSuccess
        log := s.log ++ [.succeeded] }
  | .recordFailure head rest =>
    goto i (.tryPeers head rest)
      { s with
        circuitBreaker := s.circuitBreaker.recordFailure s.now
        log := s.log ++ [.failed s.now] }
  | .rollBack head =>
    goto i .returned
      { s with
        chain := (rollbackHead P env (head - 1) s.chain).2
        log := s.log ++ [.rolledBack] }
  | .complete => goto i .returned { s with chain := { s.chain with syncStatus := .synced } }
  | _ => s

/-- `send_rpc` returns. -/
def rpc (i : ι) (ok : Bool) (s : SyncNode ι) : SyncNode ι :=
  match s.calls i with
  | .sendRpc head peer rest attempt backoff =>
    s.goto i (if ok then .recordSuccess head else .retry s.now head peer rest attempt backoff)
  | _ => s

/-- A block of the stream. -/
def process (i : ι) (env : Env) (head blocksProcessed : Nat) (block : SignedConsensusBlock)
    (s : SyncNode ι) : SyncNode ι :=
  goto i (.processed head blocksProcessed (processBlock P cfg env block s.chain).1)
    { s with chain := (processBlock P cfg env block s.chain).2 }

/-- `recv` returns. A response that is not a block is only logged. -/
def recv (i : ι) (env : Env) (response : Option (Rpc.Wire.RPCResponse SignedConsensusBlock))
    (s : SyncNode ι) : SyncNode ι :=
  match s.calls i with
  | .receive head blocksProcessed =>
    match response with
    | some (.blocksByRange block) => s.process P cfg i env head blocksProcessed block
    | some (.status _) => s
    | some (.pong _) => s
    | some (.metaData _) => s
    | none => s.goto i (if blocksProcessed < blockCount then .complete else .prepareRequest)
  | _ => s

/-- The node after an event. -/
def step : SyncEvent ι → SyncNode ι → SyncNode ι
  | .tick elapsed, s => { s with now := s.now + elapsed }
  | .discovered peers, s => { s with peers }
  | .node e, s => { s with chain := e.apply P cfg s.chain }
  | .produce i env slot, s => s.produce P cfg i env slot
  | .call i, s => s.call i
  | .resume i env, s => s.resume P i env
  | .rpc i ok, s => s.rpc i ok
  | .recv i env response, s => s.recv P cfg i env response

/-- The node after a list of events. -/
def play (events : List (SyncEvent ι)) (s : SyncNode ι) : SyncNode ι :=
  events.foldl (fun s e => s.step P cfg e) s

lemma play_append {events events' : List (SyncEvent ι)} :
    s.play P cfg (events ++ events') = (s.play P cfg events).play P cfg events' :=
  List.foldl_append

/-- The rest of the node does not restart it. -/
def Allowed (_ : SyncNode ι) : SyncEvent ι → Prop
  | .node e => e ≠ .restart
  | _ => True

/-- The runs of a node that syncs. -/
abbrev SyncRun : SyncNode ι → SyncNode ι → Prop := Run (step P cfg) Allowed

variable {P cfg}

/-- A producer that nothing comes between rolls back as `produce_block` does. -/
lemma produce_resume {i : ι} {env : ProducerEnv} {slot : Nat} {prev : SignedConsensusBlock}
    (hcall : s.calls i = .returned) (hlost : s.chain.lostHead env = some prev) :
    ((s.produce P cfg i env slot).resume P i env.toEnv).chain =
      (produceBlock P cfg env slot s.chain).2 := by
  simp only [produce, hcall, hlost, resume, calls_goto_self, produceBlock_of_lostHead hlost]
  rfl

/-- A list of events in which the rest of the node does not act. -/
lemma SyncRun.play {events : List (SyncEvent ι)} (h : events.all SyncEvent.isOwn = true)
    (s : SyncNode ι) : SyncRun P cfg s (s.play P cfg events) := by
  refine .ofList fun e mem t => ?_
  cases e with
  | node => cases List.all_eq_true.mp h _ mem
  | _ => trivial

end SyncNode

end Alys
