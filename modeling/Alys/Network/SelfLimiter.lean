import Alys.Lib.Run
import Alys.Network.Limiter

/-!
# Limiting the node's own requests

Model of `app/src/network/rpc/self_limiter.rs`. A request that the inner limiter refuses waits in a
queue for its peer and protocol, and a timer says when to try again. While there is a queue, further
requests go to its end. When the timer expires, requests are taken from the front as long as the
inner limiter allows them, and put on the list of those that are ready.

The inner limiter is a parameter: any answers it may give are covered. A timer may expire at any
poll; which one does is part of the event.
-/

namespace Alys
open Lib

/-! ## The code -/

/-- What the code uses of the inner limiter: its answer to a request, and the pruning. -/
structure InnerLimiter (L : Type) where
  allows : PeerId → RPCRequest → Action L RateLimitedErr Unit
  poll : L → L

structure QueuedRequest (Id : Type) where
  requestId : Id
  req : RPCRequest
  deriving DecidableEq

/-- `BehaviourAction::NotifyHandler` with a request for the handler of a peer. -/
structure NotifyHandler (Id : Type) where
  peerId : PeerId
  requestId : Id
  req : RPCRequest
  deriving DecidableEq

/-- `SelfRateLimiter`. The timers are kept with the times to wait. -/
structure SelfRateLimiter (Id L : Type) where
  delayedRequests : Map (PeerId × Protocol) (List (QueuedRequest Id))
  nextPeerRequest : List ((PeerId × Protocol) × Nat)
  limiter : L
  readyRequests : List (NotifyHandler Id)

/-- `self_limiter::Error`. -/
inductive SelfLimiterError where
  | pendingRequests
  | rateLimited
  deriving DecidableEq

namespace SelfRateLimiter

variable {Id L : Type} (inner : InnerLimiter L)

/-- `SelfRateLimiter::new`, with an inner limiter. -/
def new (limiter : L) : SelfRateLimiter Id L := ⟨∅, [], limiter, []⟩

/-- `SelfRateLimiter::try_send_request`. A request that is too large is sent anyway. -/
def trySendRequest (peerId : PeerId) (requestId : Id) (req : RPCRequest) :
    Action L (QueuedRequest Id × Nat) (NotifyHandler Id) := fun limiter =>
  match inner.allows peerId req limiter with
  | (.ok (), limiter) => (.ok ⟨peerId, requestId, req⟩, limiter)
  | (.error .tooLarge, limiter) => (.ok ⟨peerId, requestId, req⟩, limiter)
  | (.error (.tooSoon waitTime), limiter) => (.error (⟨requestId, req⟩, waitTime), limiter)

/-- `SelfRateLimiter::allows`. -/
def allows (peerId : PeerId) (requestId : Id) (req : RPCRequest) :
    Action (SelfRateLimiter Id L) SelfLimiterError (NotifyHandler Id) := fun s =>
  let key := (peerId, req.protocol)
  match s.delayedRequests.lookup key with
  | some queuedRequests =>
    (.error .pendingRequests,
      { s with
        delayedRequests := s.delayedRequests.insert key (queuedRequests ++ [⟨requestId, req⟩]) })
  | none =>
    match trySendRequest inner peerId requestId req s.limiter with
    | (.error (rateLimitedReq, waitTime), limiter) =>
      (.error .rateLimited,
        { s with
          limiter
          nextPeerRequest := s.nextPeerRequest ++ [(key, waitTime)]
          delayedRequests := s.delayedRequests.insert key [rateLimitedReq] })
    | (.ok event, limiter) => (.ok event, { s with limiter })

/-- The loop of `next_peer_request_ready`: what is left of the queue, and the state. A request that
is refused again goes to the end. -/
def sendQueued (peerId : PeerId) (protocol : Protocol) :
    List (QueuedRequest Id) → SelfRateLimiter Id L →
      List (QueuedRequest Id) × SelfRateLimiter Id L
  | [], s => ([], s)
  | queued :: queuedRequests, s =>
    match trySendRequest inner peerId queued.requestId queued.req s.limiter with
    | (.error (rateLimitedReq, waitTime), limiter) =>
      (queuedRequests ++ [rateLimitedReq],
        { s with
          limiter
          nextPeerRequest := s.nextPeerRequest ++ [((peerId, protocol), waitTime)] })
    | (.ok event, limiter) =>
      sendQueued peerId protocol queuedRequests
        { s with limiter, readyRequests := s.readyRequests ++ [event] }

/-- `SelfRateLimiter::next_peer_request_ready`. -/
def nextPeerRequestReady (peerId : PeerId) (protocol : Protocol) (s : SelfRateLimiter Id L) :
    SelfRateLimiter Id L :=
  match s.delayedRequests.lookup (peerId, protocol) with
  | none => s
  | some queuedRequests =>
    let (left, s) := sendQueued inner peerId protocol queuedRequests s
    if left.isEmpty then
      { s with delayedRequests := s.delayedRequests.erase (peerId, protocol) }
    else
      { s with delayedRequests := s.delayedRequests.insert (peerId, protocol) left }

/-- The first part of `poll_ready`, with the timer that `poll_expired` returns, if one is due. -/
def pollExpired (expired : Option ((PeerId × Protocol) × Nat)) (s : SelfRateLimiter Id L) :
    SelfRateLimiter Id L :=
  match expired with
  | none => s
  | some timer =>
    -- only a timer that is pending can expire
    if timer ∈ s.nextPeerRequest then
      nextPeerRequestReady inner timer.1.1 timer.1.2
        { s with nextPeerRequest := s.nextPeerRequest.erase timer }
    else
      s

/-- The last part of `poll_ready`. -/
def takeReady (s : SelfRateLimiter Id L) : Option (NotifyHandler Id) × SelfRateLimiter Id L :=
  match s.readyRequests with
  | [] => (none, s)
  | event :: readyRequests => (some event, { s with readyRequests })

/-- `SelfRateLimiter::poll_ready`. -/
def pollReady (expired : Option ((PeerId × Protocol) × Nat)) (s : SelfRateLimiter Id L) :
    Option (NotifyHandler Id) × SelfRateLimiter Id L :=
  let s := pollExpired inner expired s
  takeReady { s with limiter := inner.poll s.limiter }

/-! ## What is held -/

variable {inner : InnerLimiter L} {s : SelfRateLimiter Id L} {peerId : PeerId} {requestId : Id}
  {req : RPCRequest} {key key' : PeerId × Protocol}

/-- A queued request, as it will be sent. -/
def notify (key : PeerId × Protocol) (q : QueuedRequest Id) : NotifyHandler Id :=
  ⟨key.1, q.requestId, q.req⟩

/-- The requests of a queue, as they will be sent. -/
def queued (key : PeerId × Protocol) (queue : List (QueuedRequest Id)) :
    Multiset (NotifyHandler Id) :=
  ↑(queue.map (notify key))

/-- The requests that wait for a timer. -/
def delayed (s : SelfRateLimiter Id L) : Multiset (NotifyHandler Id) :=
  sumOver queued s.delayedRequests

/-- The requests that were neither sent nor lost. -/
def held (s : SelfRateLimiter Id L) : Multiset (NotifyHandler Id) := ↑s.readyRequests + s.delayed

/-- The number of timers that are pending for a key. -/
def timers (s : SelfRateLimiter Id L) (key : PeerId × Protocol) : Nat :=
  (s.nextPeerRequest.map (·.1)).count key

/-- A key has one timer if it has a queue, which is then not empty, and none otherwise. -/
def TimedAt (s : SelfRateLimiter Id L) (key : PeerId × Protocol) : Prop :=
  match s.delayedRequests.lookup key with
  | none => s.timers key = 0
  | some queue => queue ≠ [] ∧ s.timers key = 1

lemma queued_append {queue queue' : List (QueuedRequest Id)} :
    queued key (queue ++ queue') = queued key queue + queued key queue' := by
  simp [queued]

lemma queued_cons {q : QueuedRequest Id} {queue : List (QueuedRequest Id)} :
    queued key (q :: queue) = queued key [q] + queued key queue := by
  rw [← queued_append, List.singleton_append]

variable {timers' : List ((PeerId × Protocol) × Nat)} {queue left : List (QueuedRequest Id)}
  {expired : Option ((PeerId × Protocol) × Nat)}

/-- A timer that is added for a key. -/
lemma timers_append {waitTime : Nat} :
    ((timers' ++ [(key, waitTime)]).map (·.1)).count key' =
      (timers'.map (·.1)).count key' + if key = key' then 1 else 0 := by
  rw [List.map_append, List.count_append, List.map_singleton, List.count_cons, List.count_nil,
    Nat.zero_add]
  simp only [beq_iff_eq]

/-- A timer that expires. -/
lemma timers_erase {timer : (PeerId × Protocol) × Nat} (mem : timer ∈ timers') :
    (timers'.map (·.1)).count key =
      ((timers'.erase timer).map (·.1)).count key + if timer.1 = key then 1 else 0 := by
  rw [((List.perm_cons_erase mem).map (·.1)).count_eq key, List.map_cons, List.count_cons]
  simp only [beq_iff_eq]

/-- A request is to be sent, or comes too soon. -/
lemma trySendRequest_cases (inner : InnerLimiter L) (peerId : PeerId) (requestId : Id)
    (req : RPCRequest) (limiter : L) :
    (∃ limiter', trySendRequest inner peerId requestId req limiter =
      (.ok ⟨peerId, requestId, req⟩, limiter')) ∨
    ∃ waitTime limiter', trySendRequest inner peerId requestId req limiter =
      (.error (⟨requestId, req⟩, waitTime), limiter') := by
  unfold trySendRequest
  split
  case h_1 => exact .inl ⟨_, rfl⟩
  case h_2 => exact .inl ⟨_, rfl⟩
  case h_3 => exact .inr ⟨_, _, rfl⟩

variable {s s' : SelfRateLimiter Id L}

/-- The loop makes a first part of the queue ready. It ends with the queue, or a request is refused,
which goes to the end and for which a timer is set. -/
lemma sendQueued_cases (e : sendQueued inner key.1 key.2 queue s = (left, s')) :
    ∃ sent rest, queue = sent ++ rest ∧ s'.delayedRequests = s.delayedRequests ∧
      s'.readyRequests = s.readyRequests ++ sent.map (notify key) ∧
      (rest = [] ∧ left = [] ∧ s'.nextPeerRequest = s.nextPeerRequest ∨
        ∃ q rest' waitTime, rest = q :: rest' ∧ left = rest' ++ [q] ∧
          s'.nextPeerRequest = s.nextPeerRequest ++ [(key, waitTime)]) := by
  induction queue generalizing s with
  | nil =>
    cases e
    exact ⟨[], [], rfl, rfl, (List.append_nil _).symm, .inl ⟨rfl, rfl, rfl⟩⟩
  | cons q queue ih =>
    simp only [sendQueued] at e
    obtain ⟨limiter', esend⟩ | ⟨waitTime, limiter', esend⟩ :=
      trySendRequest_cases inner key.1 q.requestId q.req s.limiter
    · simp only [esend] at e
      obtain ⟨sent, rest, rfl, hdelayed, hready, htimer⟩ := ih e
      refine ⟨q :: sent, rest, rfl, hdelayed, hready.trans ?_, htimer⟩
      rw [List.append_assoc, List.map_cons, List.singleton_append, notify]
    · simp only [esend] at e
      cases e
      exact ⟨[], q :: queue, rfl, rfl, (List.append_nil _).symm,
        .inr ⟨q, queue, waitTime, rfl, rfl, rfl⟩⟩

/-- The loop loses no request, and sets a timer if it leaves some. -/
lemma sendQueued_spec (e : sendQueued inner key.1 key.2 queue s = (left, s')) :
    s'.delayedRequests = s.delayedRequests ∧
      ↑s'.readyRequests + queued key left = ↑s.readyRequests + queued key queue ∧
      (left = [] ∧ s'.nextPeerRequest = s.nextPeerRequest ∨
        left ≠ [] ∧ ∃ waitTime, s'.nextPeerRequest = s.nextPeerRequest ++ [(key, waitTime)]) := by
  obtain ⟨sent, rest, rfl, hdelayed, hready, hrest⟩ := sendQueued_cases e
  have hsent : (s'.readyRequests : Multiset (NotifyHandler Id)) =
      ↑s.readyRequests + queued key sent := by
    rw [hready, ← Multiset.coe_add, queued]
  rw [hsent, queued_append, add_assoc]
  refine ⟨hdelayed, ?_, ?_⟩
  · rcases hrest with ⟨rfl, rfl, _⟩ | ⟨q, rest', _, rfl, rfl, _⟩
    · rfl
    · have hcons : queued key (q :: rest') = queued key [q] + queued key rest' := queued_cons
      rw [hcons, queued_append, add_comm (queued key rest')]
  · rcases hrest with ⟨rfl, rfl, htimer⟩ | ⟨q, rest', waitTime, rfl, rfl, htimer⟩
    · exact .inl ⟨rfl, htimer⟩
    · exact .inr ⟨by simp, waitTime, htimer⟩

/-- After a change to one key, every key is timed if that one is. -/
lemma TimedAt.frame (key : PeerId × Protocol) (hkey : s'.TimedAt key)
    (timed : ∀ key' ≠ key, s.TimedAt key')
    (hothers : ∀ key' ≠ key, s'.delayedRequests.lookup key' = s.delayedRequests.lookup key' ∧
      s'.timers key' = s.timers key') : ∀ key', s'.TimedAt key' := by
  intro key'
  by_cases e : key' = key
  · exact e ▸ hkey
  · obtain ⟨hlookup, htimers⟩ := hothers key' e
    have h := timed key' e
    unfold TimedAt at h ⊢
    rw [hlookup, htimers]
    exact h

/-- A key without a timer gets a queue together with one. -/
lemma TimedAt.start {queue : List (QueuedRequest Id)} {waitTime : Nat} (hkey : s.timers key = 0)
    (hothers : ∀ key' ≠ key, s.TimedAt key') (hne : queue ≠ [])
    (hdelayed : s'.delayedRequests = s.delayedRequests.insert key queue)
    (hnext : s'.nextPeerRequest = s.nextPeerRequest ++ [(key, waitTime)]) :
    ∀ key', s'.TimedAt key' := by
  have htimers : ∀ key', s'.timers key' = s.timers key' + if key = key' then 1 else 0 := by
    intro key'
    rw [timers, hnext]
    exact timers_append
  refine TimedAt.frame key ?_ hothers fun key' ne => ?_
  · rw [TimedAt, hdelayed, Finmap.lookup_insert]
    refine ⟨hne, ?_⟩
    rw [htimers, if_pos rfl, hkey]
  · rw [hdelayed, htimers, if_neg (Ne.symm ne)]
    exact ⟨Finmap.lookup_insert_of_ne _ ne, rfl⟩

/-- When the timer of a key has expired, its queue goes on or ends, with a new timer or none. -/
lemma nextPeerRequestReady_spec {s : SelfRateLimiter Id L} (hkey : s.timers key = 0)
    (hothers : ∀ key' ≠ key, s.TimedAt key') :
    (nextPeerRequestReady inner key.1 key.2 s).held = s.held ∧
      ∀ key', (nextPeerRequestReady inner key.1 key.2 s).TimedAt key' := by
  unfold nextPeerRequestReady
  cases hlookup : s.delayedRequests.lookup key with
  | none =>
    refine ⟨rfl, TimedAt.frame key ?_ hothers fun key' _ => ⟨rfl, rfl⟩⟩
    rw [TimedAt, hlookup]
    exact hkey
  | some queue =>
    rcases e : sendQueued inner key.1 key.2 queue s with ⟨left, s'⟩
    obtain ⟨hdelayed, hready, htimer⟩ := sendQueued_spec e
    have hheld : ↑s'.readyRequests +
        (queued key left + sumOver queued (s.delayedRequests.erase key)) = s.held := by
      rw [held, delayed, sumOver_of_lookup hlookup, ← add_assoc, ← add_assoc, hready]
    simp only [e, hdelayed]
    rcases htimer with ⟨rfl, htimer⟩ | ⟨hne, waitTime, htimer⟩
    · -- every request of the queue is ready
      simp only [List.isEmpty_nil, if_true, htimer]
      refine ⟨?_, TimedAt.frame key ?_ hothers fun key' hne => ?_⟩
      · have hnil : queued key ([] : List (QueuedRequest Id)) = 0 := rfl
        rw [← hheld, hnil, zero_add, held, delayed]
      · rw [TimedAt, Finmap.lookup_erase]
        exact hkey
      · exact ⟨Finmap.lookup_erase_ne hne, rfl⟩
    · -- one was refused
      simp only [List.isEmpty_iff, hne, if_false, htimer]
      refine ⟨?_, TimedAt.start hkey hothers hne rfl rfl⟩
      rw [← hheld, held, delayed, sumOver_insert]

/-- A request is emitted at once, or is held and its key has a timer. -/
lemma allows_spec (timed : ∀ key, s.TimedAt key) {s' : SelfRateLimiter Id L}
    {result : Except SelfLimiterError (NotifyHandler Id)}
    (e : allows inner peerId requestId req s = (result, s')) :
    {⟨peerId, requestId, req⟩} + s.held = ↑result.toOption.toList + s'.held ∧
      ∀ key, s'.TimedAt key := by
  have hone : queued (peerId, req.protocol) [⟨requestId, req⟩] =
    {(⟨peerId, requestId, req⟩ : NotifyHandler Id)} := rfl
  have htimed := timed (peerId, req.protocol)
  unfold TimedAt at htimed
  unfold allows at e
  cases hlookup : s.delayedRequests.lookup (peerId, req.protocol) with
  | some queue =>
    simp only [hlookup, Prod.mk.injEq] at e htimed
    obtain ⟨rfl, rfl⟩ := e
    refine ⟨?_, TimedAt.frame (peerId, req.protocol) ?_ (fun key' _ => timed key')
      fun key' hne => ?_⟩
    · change _ = 0 + _
      rw [held, held, delayed, delayed, sumOver_insert, sumOver_of_lookup hlookup, queued_append,
        hone, zero_add]
      ac_rfl
    · rw [TimedAt, Finmap.lookup_insert]
      exact ⟨by simp, htimed.2⟩
    · exact ⟨Finmap.lookup_insert_of_ne _ hne, rfl⟩
  | none =>
    simp only [hlookup] at e htimed
    obtain ⟨limiter', esend⟩ | ⟨waitTime, limiter', esend⟩ :=
      trySendRequest_cases inner peerId requestId req s.limiter
    · simp only [esend, Prod.mk.injEq] at e
      obtain ⟨rfl, rfl⟩ := e
      exact ⟨rfl, timed⟩
    · simp only [esend, Prod.mk.injEq] at e
      obtain ⟨rfl, rfl⟩ := e
      refine ⟨?_, TimedAt.start htimed (fun key' _ => timed key') (by simp) rfl rfl⟩
      change _ = 0 + _
      rw [held, held, delayed, delayed, sumOver_insert, hone, erase_of_lookup hlookup, zero_add,
        add_left_comm]

/-- A timer that expires moves requests, and loses none. -/
lemma pollExpired_spec (timed : ∀ key, s.TimedAt key) :
    (pollExpired inner expired s).held = s.held ∧
      ∀ key, (pollExpired inner expired s).TimedAt key := by
  unfold pollExpired
  split
  case h_1 => exact ⟨rfl, timed⟩
  case h_2 timer =>
    split
    case isFalse => exact ⟨rfl, timed⟩
    case isTrue mem =>
      refine nextPeerRequestReady_spec ?_ fun key' hne => ?_
      · have htimers : s.timers timer.1 = _ := timers_erase mem
        have htimed := timed timer.1
        rw [if_pos rfl] at htimers
        unfold TimedAt at htimed
        -- the key had one timer, which is the one that expired
        split at htimed
        · omega
        · exact Nat.succ.inj (htimers.symm.trans htimed.2)
      · have htimers : s.timers key' = _ := timers_erase mem
        have htimed := timed key'
        rw [if_neg (Ne.symm hne)] at htimers
        unfold TimedAt at htimed ⊢
        rw [htimers] at htimed
        exact htimed

/-- What is emitted is no longer held. -/
lemma takeReady_held : ↑(takeReady s).1.toList + (takeReady s).2.held = s.held := by
  unfold takeReady
  split
  case h_1 => exact zero_add _
  case h_2 event readyRequests hready =>
    rw [held, held, hready, ← add_assoc]
    rfl

lemma takeReady_timedAt : (takeReady s).2.TimedAt key ↔ s.TimedAt key := by
  unfold takeReady
  split <;> rfl

/-- A poll emits the first request that is ready, if there is one. -/
lemma pollReady_spec (timed : ∀ key, s.TimedAt key) :
    ↑(pollReady inner expired s).1.toList + (pollReady inner expired s).2.held = s.held ∧
      ∀ key, (pollReady inner expired s).2.TimedAt key := by
  obtain ⟨hheld, htimed⟩ : (pollExpired inner expired s).held = s.held ∧
    ∀ key, (pollExpired inner expired s).TimedAt key := pollExpired_spec timed
  exact ⟨takeReady_held.trans hheld, fun key => takeReady_timedAt.mpr (htimed key)⟩

end SelfRateLimiter

/-! ## Runs -/

/-- A call of the limiter. -/
inductive SelfLimiterEvent (Id : Type) where
  | allows (peerId : PeerId) (requestId : Id) (req : RPCRequest)
  | poll (expired : Option ((PeerId × Protocol) × Nat))

/-- A limiter with the requests that were submitted to it and those that it emitted. -/
structure SelfLimiterRun (Id L : Type) where
  state : SelfRateLimiter Id L
  submitted : List (NotifyHandler Id)
  emitted : List (NotifyHandler Id)

/-- The effect of a call. -/
def SelfLimiterEvent.apply {Id L : Type} (inner : InnerLimiter L) :
    SelfLimiterEvent Id → SelfLimiterRun Id L → SelfLimiterRun Id L
  | .allows peerId requestId req, r =>
    let (result, state) := SelfRateLimiter.allows inner peerId requestId req r.state
    { state
      submitted := r.submitted ++ [⟨peerId, requestId, req⟩]
      emitted := r.emitted ++ result.toOption.toList }
  | .poll expired, r =>
    let (event, state) := r.state.pollReady inner expired
    { r with state, emitted := r.emitted ++ event.toList }

/-- The state after a sequence of calls of a new limiter. -/
def SelfLimiterRun.calls {Id L : Type} (inner : InnerLimiter L) (limiter : L)
    (events : List (SelfLimiterEvent Id)) : SelfLimiterRun Id L :=
  events.foldl (fun r event => event.apply inner r) ⟨.new limiter, [], []⟩

/-- Every submitted request was emitted or is held, once. A key has a queue exactly if that is not
empty and one timer is pending for it; without a queue there is no timer. -/
structure Conserved {Id L : Type} (r : SelfLimiterRun Id L) : Prop where
  requests : (r.submitted : Multiset (NotifyHandler Id)) =
    ↑r.emitted + (↑r.state.readyRequests + r.state.delayed)
  queues : ∀ key, key ∈ r.state.delayedRequests ↔
    (r.state.delayedRequests.lookup key).getD [] ≠ [] ∧ r.state.timers key = 1
  idle : ∀ key, key ∉ r.state.delayedRequests → r.state.timers key = 0

section

variable {Id L : Type} {inner : InnerLimiter L} {r : SelfLimiterRun Id L}

/-- What every call keeps. -/
structure SelfLimiterRun.Accounted (r : SelfLimiterRun Id L) : Prop where
  requests : (r.submitted : Multiset (NotifyHandler Id)) = ↑r.emitted + r.state.held
  timed : ∀ key, r.state.TimedAt key

/-- Every event keeps the account. -/
lemma SelfLimiterEvent.apply_accounted (event : SelfLimiterEvent Id) (h : r.Accounted) :
    (event.apply inner r).Accounted := by
  cases event with
  | allows peerId requestId req =>
    obtain ⟨hheld, htimed⟩ := SelfRateLimiter.allows_spec h.timed
      (rfl : SelfRateLimiter.allows inner peerId requestId req r.state = _)
    refine ⟨?_, htimed⟩
    change (r.submitted : Multiset (NotifyHandler Id)) + {⟨peerId, requestId, req⟩} = _
    rw [h.requests, add_assoc, add_comm r.state.held, hheld, ← add_assoc]
    rfl
  | poll expired =>
    obtain ⟨hheld, htimed⟩ :
      ↑(r.state.pollReady inner expired).1.toList + (r.state.pollReady inner expired).2.held =
          r.state.held ∧
        ∀ key, (r.state.pollReady inner expired).2.TimedAt key :=
      SelfRateLimiter.pollReady_spec h.timed
    refine ⟨?_, htimed⟩
    change (r.submitted : Multiset (NotifyHandler Id)) = _
    rw [h.requests, ← hheld, ← add_assoc]
    rfl

lemma SelfLimiterRun.calls_accounted (inner : InnerLimiter L) (limiter : L)
    (events : List (SelfLimiterEvent Id)) :
    (SelfLimiterRun.calls inner limiter events).Accounted := by
  refine List.foldlRecOn events _ ⟨rfl, fun key => ?_⟩ fun _ h event _ => event.apply_accounted h
  rw [SelfRateLimiter.TimedAt, SelfRateLimiter.new, Finmap.lookup_empty]
  rfl

end

/-- The limiter loses and duplicates nothing. -/
theorem selfLimiter_conserves {Id L : Type} (inner : InnerLimiter L) (limiter : L)
    (events : List (SelfLimiterEvent Id)) :
    Conserved (SelfLimiterRun.calls inner limiter events) := by
  obtain ⟨hrequests, htimed⟩ := SelfLimiterRun.calls_accounted inner limiter events
  refine ⟨hrequests, fun key => ?_, fun key hkey => ?_⟩
  · have h := htimed key
    rw [← Finmap.lookup_isSome]
    unfold SelfRateLimiter.TimedAt at h
    split at h
    case h_1 hlookup => simp [hlookup]
    case h_2 hlookup => simpa [hlookup] using h
  · have h := htimed key
    rwa [SelfRateLimiter.TimedAt, Finmap.lookup_eq_none.mpr hkey] at h

/-! ## Order -/

section

variable {Id L : Type} {inner : InnerLimiter L}

/-- The peer and the protocol of a request. -/
def NotifyHandler.key (n : NotifyHandler Id) : PeerId × Protocol := (n.peerId, n.req.protocol)

/-- The requests to a peer and protocol, in their order. -/
def ofKey (key : PeerId × Protocol) (requests : List (NotifyHandler Id)) :
    List (NotifyHandler Id) :=
  requests.filter fun n => decide (n.key = key)

namespace SelfRateLimiter

variable {s s' : SelfRateLimiter Id L} {key key' : PeerId × Protocol}

/-- The requests that wait for the timer of a key, from the front of its queue. -/
def waiting (s : SelfRateLimiter Id L) (key : PeerId × Protocol) : List (NotifyHandler Id) :=
  ((s.delayedRequests.lookup key).getD []).map (notify key)

/-- The requests of a key that are held, those that are ready first. -/
def line (s : SelfRateLimiter Id L) (key : PeerId × Protocol) : List (NotifyHandler Id) :=
  ofKey key s.readyRequests ++ s.waiting key

/-- The queues hold requests of their own key. -/
def QueuesKeyed (s : SelfRateLimiter Id L) : Prop := ∀ key, ∀ n ∈ s.waiting key, n.key = key

end SelfRateLimiter

/-- The inner limiter does not find a request too soon. -/
def InnerLimiter.Sends (inner : InnerLimiter L) (peerId : PeerId) (req : RPCRequest) (limiter : L) :
    Prop :=
  ∀ waitTime, (inner.allows peerId req limiter).1 ≠ .error (.tooSoon waitTime)

/-- The inner limiter, asked for the requests of a queue in turn, finds none too soon but the last.
-/
def InnerLimiter.SendsAllButLast (inner : InnerLimiter L) (peerId : PeerId) :
    List (QueuedRequest Id) → L → Prop
  | [], _ => True
  | [_], _ => True
  | q :: next :: queue, limiter =>
    inner.Sends peerId q.req limiter ∧
      inner.SendsAllButLast peerId (next :: queue) (inner.allows peerId q.req limiter).2

/-- A call that keeps the order. If a request finds no queue and the inner limiter would send it,
none of its peer and protocol is ready and not yet emitted; when the timer of a queue expires, the
inner limiter refuses at most the last of the queue. -/
def SelfLimiterEvent.Orderly (inner : InnerLimiter L) (s : SelfRateLimiter Id L) :
    SelfLimiterEvent Id → Prop
  | .allows peerId _ req =>
    s.delayedRequests.lookup (peerId, req.protocol) = none → inner.Sends peerId req s.limiter →
      ofKey (peerId, req.protocol) s.readyRequests = []
  | .poll expired =>
    ∀ timer ∈ expired, timer ∈ s.nextPeerRequest →
      ∀ queue, s.delayedRequests.lookup timer.1 = some queue →
        inner.SendsAllButLast timer.1.1 queue s.limiter

variable {key : PeerId × Protocol} {requests : List (NotifyHandler Id)}

lemma ofKey_append {requests requests' : List (NotifyHandler Id)} :
    ofKey key (requests ++ requests') = ofKey key requests ++ ofKey key requests' :=
  List.filter_append ..

lemma ofKey_of_forall (h : ∀ n ∈ requests, n.key = key) : ofKey key requests = requests :=
  List.filter_eq_self.mpr fun n mem => decide_eq_true (h n mem)

lemma ofKey_of_ne {key key' : PeerId × Protocol} (h : ∀ n ∈ requests, n.key = key)
    (ne : key' ≠ key) : ofKey key' requests = [] := by
  refine List.filter_eq_nil_iff.mpr fun n mem => ?_
  rw [h n mem, decide_eq_true_eq]
  exact Ne.symm ne

namespace SelfRateLimiter

variable {s s' : SelfRateLimiter Id L} {key : PeerId × Protocol} {queue : List (QueuedRequest Id)}

lemma waiting_insert {delayed : Map (PeerId × Protocol) (List (QueuedRequest Id))}
    (hs : s.delayedRequests = delayed.insert key queue) :
    s.waiting key = queue.map (notify key) := by
  rw [waiting, hs, Finmap.lookup_insert, Option.getD_some]

lemma waiting_congr (hs : s'.delayedRequests.lookup key = s.delayedRequests.lookup key) :
    s'.waiting key = s.waiting key := by
  rw [waiting, hs, waiting]

/-- A queue that changes only at one key. -/
lemma QueuesKeyed.frame (keyed : s.QueuesKeyed) (key : PeerId × Protocol)
    (hkey : ∀ n ∈ s'.waiting key, n.key = key)
    (hothers : ∀ key' ≠ key, s'.waiting key' = s.waiting key') : s'.QueuesKeyed := by
  intro key' n mem
  by_cases e : key' = key
  · subst e
    exact hkey n mem
  · rw [hothers key' e] at mem
    exact keyed key' n mem

/-- A request that is put at the end of its queue. -/
lemma enqueue_line {n : NotifyHandler Id} (keyed : s.QueuesKeyed)
    (hready : s'.readyRequests = s.readyRequests)
    (hkey : s'.waiting n.key = s.waiting n.key ++ [n])
    (hothers : ∀ key ≠ n.key, s'.waiting key = s.waiting key) :
    s'.QueuesKeyed ∧ ∀ key, s'.line key = s.line key ++ ofKey key [n] := by
  refine ⟨keyed.frame n.key (fun m mem => ?_) hothers, fun key => ?_⟩
  · rw [hkey, List.mem_append, List.mem_singleton] at mem
    rcases mem with mem | rfl
    · exact keyed _ m mem
    · rfl
  · by_cases e : key = n.key
    · subst e
      have self : ofKey n.key [n] = [n] := ofKey_of_forall (by simp)
      rw [self, line, hready, hkey, ← List.append_assoc, line]
    · have other : ofKey key [n] = [] := ofKey_of_ne (by simp) e
      rw [other, line, hready, hothers key e, List.append_nil, line]

variable {peerId : PeerId} {req : RPCRequest} {expired : Option ((PeerId × Protocol) × Nat)}

/-- A request that is to be sent was not found too soon. -/
lemma sends_of_trySendRequest {requestId : Id} {limiter limiter' : L} {event : NotifyHandler Id}
    (e : trySendRequest inner peerId requestId req limiter = (.ok event, limiter')) :
    inner.Sends peerId req limiter := by
  intro waitTime refused
  unfold trySendRequest at e
  split at e
  case h_1 h => simp [h] at refused
  case h_2 h => simp [h] at refused
  case h_3 => cases e

lemma trySendRequest_of_sends {limiter : L} (h : inner.Sends peerId req limiter) (requestId : Id) :
    trySendRequest inner peerId requestId req limiter =
      (.ok ⟨peerId, requestId, req⟩, (inner.allows peerId req limiter).2) := by
  unfold trySendRequest
  split
  case h_1 e => rw [e]
  case h_2 e => rw [e]
  case h_3 waitTime _ e => exact absurd (congrArg Prod.fst e) (h waitTime)

/-- A submitted request is the last of its line. -/
lemma allows_line {requestId : Id} {result : Except SelfLimiterError (NotifyHandler Id)}
    (keyed : s.QueuesKeyed) (e : allows inner peerId requestId req s = (result, s'))
    (orderly : s.delayedRequests.lookup (peerId, req.protocol) = none →
      inner.Sends peerId req s.limiter → ofKey (peerId, req.protocol) s.readyRequests = []) :
    s'.QueuesKeyed ∧ ∀ key, ofKey key result.toOption.toList ++ s'.line key =
      s.line key ++ ofKey key [⟨peerId, requestId, req⟩] := by
  unfold allows at e
  cases hlookup : s.delayedRequests.lookup (peerId, req.protocol) with
  | some queue =>
    simp only [hlookup, Prod.mk.injEq] at e
    obtain ⟨rfl, rfl⟩ := e
    refine enqueue_line keyed rfl ?_ fun key ne => waiting_congr (Finmap.lookup_insert_of_ne _ ne)
    rw [NotifyHandler.key, waiting_insert rfl, List.map_append, waiting, hlookup]
    rfl
  | none =>
    have hwaiting : s.waiting (peerId, req.protocol) = [] := by rw [waiting, hlookup]; rfl
    simp only [hlookup] at e
    obtain ⟨limiter', esend⟩ | ⟨waitTime, limiter', esend⟩ :=
      trySendRequest_cases inner peerId requestId req s.limiter
    · simp only [esend, Prod.mk.injEq] at e
      obtain ⟨rfl, rfl⟩ := e
      refine ⟨keyed, fun key => ?_⟩
      by_cases ne : key = (peerId, req.protocol)
      · -- nothing of the key is held
        subst ne
        have hline : s.line (peerId, req.protocol) = [] := by
          rw [line, orderly hlookup (sends_of_trySendRequest esend), hwaiting, List.append_nil]
        rw [hline, List.nil_append]
        exact (congrArg _ hline).trans (List.append_nil _)
      · have hne : ofKey key [(⟨peerId, requestId, req⟩ : NotifyHandler Id)] = [] :=
          ofKey_of_ne (by simp [NotifyHandler.key]) ne
        rw [hne, List.append_nil]
        exact congrArg (· ++ s.line key) hne
    · simp only [esend, Prod.mk.injEq] at e
      obtain ⟨rfl, rfl⟩ := e
      refine enqueue_line keyed rfl ?_ fun key ne => waiting_congr (Finmap.lookup_insert_of_ne _ ne)
      rw [NotifyHandler.key, waiting_insert rfl, hwaiting]
      rfl

/-- After the expiry of a key, a first part of its queue is ready. The rest waits in its order,
unless two or more requests are left. -/
lemma nextPeerRequestReady_cases (hlookup : s.delayedRequests.lookup key = some queue)
    (hs' : nextPeerRequestReady inner key.1 key.2 s = s') :
    ∃ sent rest, queue = sent ++ rest ∧
      s'.readyRequests = s.readyRequests ++ sent.map (notify key) ∧
      ((s'.waiting key).length ≤ 1 → s'.waiting key = rest.map (notify key)) ∧
      ∀ key' ≠ key, s'.waiting key' = s.waiting key' := by
  rcases e : sendQueued inner key.1 key.2 queue s with ⟨left, s''⟩
  obtain ⟨sent, rest, rfl, hdelayed, hready, hrest⟩ := sendQueued_cases e
  refine ⟨sent, rest, rfl, ?_⟩
  simp only [nextPeerRequestReady, hlookup, e, hdelayed] at hs'
  rcases hrest with ⟨rfl, rfl, _⟩ | ⟨q, rest', _, rfl, rfl, _⟩
  · simp only [List.isEmpty_nil, if_true] at hs'
    subst hs'
    refine ⟨hready, fun _ => ?_, fun key' ne => waiting_congr (Finmap.lookup_erase_ne ne)⟩
    rw [waiting, Finmap.lookup_erase]
    rfl
  · have hne : rest' ++ [q] ≠ [] := by simp
    simp only [List.isEmpty_iff, hne, if_false] at hs'
    subst hs'
    refine ⟨hready, fun le => ?_, fun key' ne => waiting_congr (Finmap.lookup_insert_of_ne _ ne)⟩
    rw [waiting_insert rfl] at le ⊢
    cases rest' with
    | nil => rfl
    | cons q' rest' => simp at le

/-- The loop leaves at most the last request, if it is the only one that may be refused. -/
lemma sendQueued_left_le {queue left : List (QueuedRequest Id)}
    (orderly : inner.SendsAllButLast key.1 queue s.limiter)
    (e : sendQueued inner key.1 key.2 queue s = (left, s')) : left.length ≤ 1 := by
  induction queue generalizing s with
  | nil =>
    cases e
    exact Nat.zero_le 1
  | cons q queue ih =>
    cases queue with
    | nil =>
      obtain ⟨sent, rest, hqueue, _, _, hrest⟩ := sendQueued_cases e
      have hlength := congrArg List.length hqueue
      rcases hrest with ⟨rfl, rfl, _⟩ | ⟨q', rest', _, rfl, rfl, _⟩
      · exact Nat.zero_le 1
      · simp only [List.length_append, List.length_cons, List.length_nil] at hlength ⊢
        omega
    | cons next queue =>
      obtain ⟨sends, rest⟩ := orderly
      rw [sendQueued, trySendRequest_of_sends sends] at e
      exact ih (s := { s with
        limiter := (inner.allows key.1 q.req s.limiter).2
        readyRequests := s.readyRequests ++ [⟨key.1, q.requestId, q.req⟩] }) rest e

lemma nextPeerRequestReady_waiting_le (hlookup : s.delayedRequests.lookup key = some queue)
    (orderly : inner.SendsAllButLast key.1 queue s.limiter) :
    ((nextPeerRequestReady inner key.1 key.2 s).waiting key).length ≤ 1 := by
  rcases e : sendQueued inner key.1 key.2 queue s with ⟨left, s''⟩
  have hle := sendQueued_left_le orderly e
  simp only [nextPeerRequestReady, hlookup, e]
  split
  · rw [waiting, Finmap.lookup_erase]
    exact Nat.zero_le 1
  · rw [waiting_insert rfl, List.length_map]
    exact hle

/-- An expiry leaves the lines as they are, if at most one request is left waiting. -/
lemma nextPeerRequestReady_line (keyed : s.QueuesKeyed)
    (orderly : ∀ queue, s.delayedRequests.lookup key = some queue →
      inner.SendsAllButLast key.1 queue s.limiter) :
    (nextPeerRequestReady inner key.1 key.2 s).QueuesKeyed ∧
      ∀ key', (nextPeerRequestReady inner key.1 key.2 s).line key' = s.line key' := by
  cases hlookup : s.delayedRequests.lookup key with
  | none =>
    have e : nextPeerRequestReady inner key.1 key.2 s = s := by
      simp only [nextPeerRequestReady, hlookup]
    rw [e]
    exact ⟨keyed, fun _ => rfl⟩
  | some queue =>
    have left := nextPeerRequestReady_waiting_le hlookup (orderly queue hlookup)
    obtain ⟨sent, rest, rfl, hready, hrest, hothers⟩ := nextPeerRequestReady_cases hlookup rfl
    have hwaiting : s.waiting key = sent.map (notify key) ++ rest.map (notify key) := by
      rw [waiting, hlookup, Option.getD_some, List.map_append]
    have hkeyed := keyed key
    rw [hwaiting, List.forall_mem_append] at hkeyed
    refine ⟨keyed.frame key ?_ hothers, fun key' => ?_⟩
    · rw [hrest left]
      exact hkeyed.2
    · rw [line, hready, ofKey_append, List.append_assoc, line]
      by_cases ne : key' = key
      · subst ne
        rw [hrest left, ofKey_of_forall hkeyed.1, hwaiting]
      · rw [hothers key' ne, ofKey_of_ne hkeyed.1 ne, List.nil_append]

/-- An expiry moves requests within their line. -/
lemma pollExpired_line (keyed : s.QueuesKeyed)
    (orderly : (SelfLimiterEvent.poll expired : SelfLimiterEvent Id).Orderly inner s) :
    (s.pollExpired inner expired).QueuesKeyed ∧
      ∀ key, (s.pollExpired inner expired).line key = s.line key := by
  cases expired with
  | none => exact ⟨keyed, fun _ => rfl⟩
  | some timer =>
    simp only [pollExpired]
    split
    case isFalse => exact ⟨keyed, fun _ => rfl⟩
    case isTrue mem =>
      have erased : QueuesKeyed
          { s with nextPeerRequest := s.nextPeerRequest.erase timer } := keyed
      exact nextPeerRequestReady_line erased (orderly timer rfl mem)

lemma takeReady_line :
    ofKey key (takeReady s).1.toList ++ (takeReady s).2.line key = s.line key := by
  unfold takeReady
  split
  case h_1 => rfl
  case h_2 event readyRequests hready =>
    rw [line, line, hready, ← List.append_assoc, ← ofKey_append]
    rfl

lemma takeReady_waiting : (takeReady s).2.waiting key = s.waiting key := by
  unfold takeReady
  split <;> rfl

/-- A poll emits the first request of a line, or none. -/
lemma pollReady_line (keyed : s.QueuesKeyed)
    (orderly : (SelfLimiterEvent.poll expired : SelfLimiterEvent Id).Orderly inner s) :
    (s.pollReady inner expired).2.QueuesKeyed ∧
      ∀ key, ofKey key (s.pollReady inner expired).1.toList ++
        (s.pollReady inner expired).2.line key = s.line key := by
  obtain ⟨keyed', line⟩ := pollExpired_line keyed orderly
  refine ⟨fun key n mem => keyed' key n ?_, fun key => takeReady_line.trans (line key)⟩
  rwa [pollReady, takeReady_waiting] at mem

end SelfRateLimiter

/-- What was submitted for a key is what was emitted and then its line. -/
structure SelfLimiterRun.Ordered (r : SelfLimiterRun Id L) : Prop where
  keyed : r.state.QueuesKeyed
  line : ∀ key, ofKey key r.submitted = ofKey key r.emitted ++ r.state.line key

/-- Every orderly event keeps the order. -/
lemma SelfLimiterEvent.apply_ordered {r : SelfLimiterRun Id L} {event : SelfLimiterEvent Id}
    (h : r.Ordered) (orderly : event.Orderly inner r.state) : (event.apply inner r).Ordered := by
  cases event with
  | allows peerId requestId req =>
    obtain ⟨keyed, line⟩ := SelfRateLimiter.allows_line h.keyed
      (rfl : SelfRateLimiter.allows inner peerId requestId req r.state = _) orderly
    refine ⟨keyed, fun key => ?_⟩
    change ofKey key (r.submitted ++ _) = ofKey key (r.emitted ++ _) ++ _
    rw [ofKey_append, ofKey_append, List.append_assoc, h.line, List.append_assoc, ← line]
    rfl
  | poll expired =>
    obtain ⟨keyed, line⟩ :
      (r.state.pollReady inner expired).2.QueuesKeyed ∧
        ∀ key, ofKey key (r.state.pollReady inner expired).1.toList ++
          (r.state.pollReady inner expired).2.line key = r.state.line key :=
      SelfRateLimiter.pollReady_line h.keyed orderly
    refine ⟨keyed, fun key => ?_⟩
    change ofKey key r.submitted = ofKey key (r.emitted ++ _) ++ _
    rw [ofKey_append, List.append_assoc, h.line, ← line]
    rfl

end

/-- The requests to each peer and protocol are emitted in the order in which they were submitted, if
no call emits or delays one past another. -/
theorem selfLimiter_emits_inOrder {Id L : Type} (inner : InnerLimiter L) (limiter : L)
    (r : SelfLimiterRun Id L)
    (run : Run (SelfLimiterEvent.apply inner) (fun r event => event.Orderly inner r.state)
      ⟨.new limiter, [], []⟩ r) (key : PeerId × Protocol) :
    ofKey key r.emitted <+: ofKey key r.submitted := by
  have ordered : r.Ordered := by
    refine run.invariant (I := SelfLimiterRun.Ordered) ⟨?_, fun _ => rfl⟩ fun t event h orderly =>
      SelfLimiterEvent.apply_ordered h orderly
    intro key n mem
    cases mem
  exact ⟨r.state.line key, (ordered.line key).symm⟩

/-- An inner limiter that refuses a request if the next of its answers says so. -/
def InnerLimiter.toy : InnerLimiter (List Bool) where
  allows _ _ := fun answers =>
    (if answers.headD true then .ok () else .error (.tooSoon 1), answers.tail)
  poll answers := answers

/-- Pings to a peer, and expiries of the timer of the first. -/
def SelfLimiterEvent.toy (requests : List Nat) (expiries : Nat) : List (SelfLimiterEvent Nat) :=
  requests.map (fun requestId => .allows 0 requestId (.ping 0)) ++
    List.replicate expiries (.poll (some ((0, .ping), 1)))

/-- The first request is refused at first, and both are sent when its timer expires. -/
theorem selfLimiter_emits_two :
    (SelfLimiterRun.calls .toy [false] (SelfLimiterEvent.toy [1, 2] 2)).emitted =
        [⟨0, 1, .ping 0⟩, ⟨0, 2, .ping 0⟩] ∧
      ofKey (0, .ping)
          (SelfLimiterRun.calls .toy [false] (SelfLimiterEvent.toy [1, 2] 2)).emitted <+:
        ofKey (0, .ping)
          (SelfLimiterRun.calls .toy [false] (SelfLimiterEvent.toy [1, 2] 2)).submitted := by
  refine ⟨by decide, selfLimiter_emits_inOrder .toy [false] _ ?_ (0, .ping)⟩
  refine .snoc (.snoc (.snoc (.snoc .refl (SelfLimiterEvent.allows 0 1 (.ping 0)) ?_)
    (SelfLimiterEvent.allows 0 2 (.ping 0)) ?_)
    (SelfLimiterEvent.poll (some ((0, .ping), 1))) ?_)
    (SelfLimiterEvent.poll (some ((0, .ping), 1))) ?_
  · exact fun _ _ => rfl
  · exact fun _ _ => rfl
  · rintro timer ⟨⟩ _ queue ⟨⟩
    exact ⟨nofun, trivial⟩
  · rintro timer ⟨⟩ pending
    cases pending

/-- Of three requests the first is refused, and so the others wait behind it. When the timer expires
one request is sent, the first; the second is refused and then stands behind the third. -/
theorem selfLimiter_emits_inOrder_fails :
    ¬ ∀ (Id L : Type) (inner : InnerLimiter L) (limiter : L) (events : List (SelfLimiterEvent Id))
      (key : PeerId × Protocol),
      (ofKey key (SelfLimiterRun.calls inner limiter events).emitted).Sublist
        (ofKey key (SelfLimiterRun.calls inner limiter events).submitted) := by
  intro all
  have h := all Nat (List Bool) .toy [false, true, false] (SelfLimiterEvent.toy [1, 2, 3] 3)
    (0, .ping)
  have emitted : ofKey (0, .ping)
      (SelfLimiterRun.calls .toy [false, true, false] (SelfLimiterEvent.toy [1, 2, 3] 3)).emitted =
    [⟨0, 1, .ping 0⟩, ⟨0, 3, .ping 0⟩, ⟨0, 2, .ping 0⟩] := by decide
  have submitted : ofKey (0, .ping)
      (SelfLimiterRun.calls .toy [false, true, false]
        (SelfLimiterEvent.toy [1, 2, 3] 3)).submitted =
    [⟨0, 1, .ping 0⟩, ⟨0, 2, .ping 0⟩, ⟨0, 3, .ping 0⟩] := by decide
  rw [emitted, submitted] at h
  revert h
  decide

end Alys
