import Alys.Network.Outbound
import Mathlib.Logic.Function.Basic

/-!
# Response channels of the backend

Model of how `NetworkBackend::run` in `app/src/network/mod.rs` sends requests and takes in what
becomes of them, with the behaviour `RPC` of `app/src/network/rpc/mod.rs` and the connections. The
node runs the behaviour without rate limiters, and never calls its `shutdown`.

The swarm is between these parts. It hands what the behaviour sends to a connection of the peer, or
drops it if there is none, and it hands the events of each connection to the behaviour in their
order. When it does so is open, and so are the answers that the connections get.

For each request the backend keeps a sender, over which the responses go to the caller. It is
removed at the end of the stream. It is not removed if the request fails, and then the caller waits
for ever.
-/

namespace Alys.Rpc
open Lib

/-- `RequestId`, a `u32`. -/
abbrev RequestId := Nat

abbrev ConnectionId := Nat

section

variable {R : Type}

/-! ## The behaviour -/

inductive NotifyHandler where
  | one (connId : ConnectionId)
  | any
  deriving DecidableEq

/-- `RPCSend`, without the shutdown. -/
inductive RPCSend (R : Type) where
  | request (id : RequestId) (req : RPCRequest)
  | response (substreamId : SubstreamId) (message : RPCCodedResponse R)

structure RPCMessage (R : Type) where
  peerId : PeerId
  connId : ConnectionId
  event : HandlerEvent RequestId R

inductive BehaviourAction (R : Type) where
  | notifyHandler (peerId : PeerId) (handler : NotifyHandler) (event : RPCSend R)
  | generateEvent (message : RPCMessage R)

/-- The behaviour, with the actions that wait for the swarm. -/
structure RPC (R : Type) where
  events : List (BehaviourAction R)

namespace RPC

/-- `RPC::send_request`. -/
def sendRequest (peerId : PeerId) (requestId : RequestId) (req : RPCRequest) (rpc : RPC R) :
    RPC R :=
  ⟨rpc.events ++ [.notifyHandler peerId .any (.request requestId req)]⟩

/-- `RPC::send_response`. -/
def sendResponse (peerId : PeerId) (connId : ConnectionId) (substreamId : SubstreamId)
    (response : RPCCodedResponse R) (rpc : RPC R) : RPC R :=
  ⟨rpc.events ++ [.notifyHandler peerId (.one connId) (.response substreamId response)]⟩

/-- `RPC::on_connection_handler_event`. -/
def onConnectionHandlerEvent (message : RPCMessage R) (rpc : RPC R) : RPC R :=
  ⟨rpc.events ++ [.generateEvent message]⟩

end RPC

/-! ## The backend -/

structure NetworkBackend (R : Type) where
  rpc : RPC R
  /-- the senders, with the responses that went over each -/
  rpcResponseChannels : Map RequestId (List R)
  nextId : RequestId
  /-- the messages that were sent to the listeners for requests -/
  rpcEvents : List (RPCMessage R)

inductive BackendPanic where
  /-- a response without a sender for it -/
  | missingChannel
  /-- a caller that no longer waits for its receiver -/
  | callerGone
  /-- no request id is left -/
  | overflow
  deriving DecidableEq

namespace NetworkBackend

/-- `FrontToBackCommand::SendRpc`. -/
def sendRpc (peerId : PeerId) (req : RPCRequest) (callerWaits : Bool) (b : NetworkBackend R) :
    Except BackendPanic (NetworkBackend R) :=
  let b' := { b with
    rpc := b.rpc.sendRequest peerId b.nextId req
    rpcResponseChannels := b.rpcResponseChannels.insert b.nextId [] }
  if callerWaits then
    if b.nextId + 1 < 2 ^ 32 then .ok { b' with nextId := b.nextId + 1 } else .error .overflow
  else
    .error .callerGone

/-- `FrontToBackCommand::RespondRpc`. -/
def respondRpc (peerId : PeerId) (connId : ConnectionId) (substreamId : SubstreamId)
    (payload : RPCCodedResponse R) (b : NetworkBackend R) : NetworkBackend R :=
  { b with rpc := b.rpc.sendResponse peerId connId substreamId payload }

/-- `MyBehaviourEvent::Eth2Rpc`. Errors are logged. -/
def onEth2Rpc (message : RPCMessage R) (b : NetworkBackend R) :
    Except BackendPanic (NetworkBackend R) :=
  match message.event with
  | .ok (.request ..) => .ok { b with rpcEvents := b.rpcEvents ++ [message] }
  | .ok (.response id response) =>
    match b.rpcResponseChannels.lookup id with
    | none => .error .missingChannel
    | some sent =>
      .ok { b with
        rpcResponseChannels := b.rpcResponseChannels.insert id (sent ++ [response]) }
  | .ok (.endOfStream id _) => .ok { b with rpcResponseChannels := b.rpcResponseChannels.erase id }
  | .error (.inbound ..) => .ok b
  | .error (.outbound ..) => .ok b

end NetworkBackend

/-! ## The network -/

/-- The backend and the connections, with what passed between them. A connection that is not yet
established is new. -/
structure Network (R : Type) where
  backend : NetworkBackend R
  conns : ConnectionId → Connection RequestId R
  /-- the ids of the requests that were sent -/
  issued : List RequestId
  /-- the messages that were reported to the backend -/
  reported : List (RPCMessage R)
  panicked : Option BackendPanic

def Network.new : Network R where
  backend := ⟨⟨[]⟩, ∅, 0, []⟩
  conns _ := .new
  issued := []
  reported := []
  panicked := none

def BehaviourAction.message? : BehaviourAction R → Option (RPCMessage R)
  | .notifyHandler .. => none
  | .generateEvent message => some message

def BehaviourAction.request? : BehaviourAction R → Option RequestId
  | .notifyHandler _ _ (.request id _) => some id
  | .notifyHandler _ _ (.response ..) => none
  | .generateEvent _ => none

/-- The events of a connection among some messages. -/
def eventsOf (messages : List (RPCMessage R)) (connId : ConnectionId) :
    List (HandlerEvent RequestId R) :=
  (messages.filter fun message => decide (message.connId = connId)).map (·.event)

namespace Network

/-- The messages that wait for the backend. -/
def queued (w : Network R) : List (RPCMessage R) := w.backend.rpc.events.filterMap (·.message?)

/-- The requests that wait for a connection. -/
def waiting (w : Network R) : List RequestId := w.backend.rpc.events.filterMap (·.request?)

/-- The events of a connection that reached the behaviour. -/
def relayed (w : Network R) (connId : ConnectionId) : List (HandlerEvent RequestId R) :=
  eventsOf (w.reported ++ w.queued) connId

/-- The end of the stream of a request was reported. -/
def HasEnded (w : Network R) (id : RequestId) : Prop := Ended (w.reported.map (·.event)) id

/-- An error of a request was reported. -/
def HasFailed (w : Network R) (id : RequestId) : Prop :=
  ∃ message ∈ w.reported, ∃ proto error, message.event = .error (.outbound id proto error)

end Network

inductive NetworkEvent (R : Type) where
  | sendRpc (peerId : PeerId) (req : RPCRequest) (callerWaits : Bool)
  | respondRpc (peerId : PeerId) (connId : ConnectionId) (substreamId : SubstreamId)
    (payload : RPCCodedResponse R)
  /-- a substream is negotiated or a connection is polled -/
  | connection (connId : ConnectionId) (event : ConnectionEvent RequestId R)
  /-- an event of a connection reaches the behaviour -/
  | handlerEvent (message : RPCMessage R)
  /-- the swarm takes an action of the behaviour; a connection is chosen for what is sent -/
  | swarm (target : Option ConnectionId)

/-- The call of a connection that the swarm makes for the behaviour. -/
def RPCSend.call : RPCSend R → ConnectionEvent RequestId R
  | .request id req => .request id req
  | .response substreamId message => .response substreamId message

/-- The calls of a connection that the swarm makes by itself. -/
def ConnectionEvent.Own : ConnectionEvent RequestId R → Prop
  | .request .. => False
  | .response .. => False
  | .shutdown .. => False
  | .fullyNegotiatedInbound _ => True
  | .fullyNegotiatedOutbound .. => True
  | .dialUpgradeError .. => True
  | .poll _ => True

namespace Network

/-- A connection that is called. -/
def call (connId : ConnectionId) (event : ConnectionEvent RequestId R) (w : Network R) :
    Network R :=
  { w with conns := Function.update w.conns connId (event.apply (w.conns connId)) }

/-- What the swarm does with an action of the behaviour. -/
def take (target : Option ConnectionId) (action : BehaviourAction R) (w : Network R) : Network R :=
  match action with
  | .notifyHandler _ _ event =>
    match target with
    | none => w
    | some connId => w.call connId event.call
  | .generateEvent message =>
    match w.backend.onEth2Rpc message with
    | .ok backend => { w with backend, reported := w.reported ++ [message] }
    | .error reason => { w with panicked := some reason }

end Network

namespace NetworkEvent

variable (peerOf : ConnectionId → PeerId)

/-- A connection for what is sent is one of the peer, and the one that is named if there is one. The
events of a connection reach the behaviour in their order. -/
def Possible (w : Network R) : NetworkEvent R → Prop
  | .sendRpc .. => True
  | .respondRpc .. => True
  | .connection connId event => event.Own ∧ event.Possible (w.conns connId)
  | .handlerEvent message => message.peerId = peerOf message.connId ∧
    w.relayed message.connId ++ [message.event] <+: (w.conns message.connId).notified
  | .swarm target => ∀ connId peerId handler event,
    target = some connId → w.backend.rpc.events.head? = some (.notifyHandler peerId handler event) →
      peerId = peerOf connId ∧ (handler = .any ∨ handler = .one connId)

/-- The effect of an event; after a panic there is none. -/
def apply (event : NetworkEvent R) (w : Network R) : Network R :=
  if w.panicked.isSome then
    w
  else
    match event with
    | .sendRpc peerId req callerWaits =>
      match w.backend.sendRpc peerId req callerWaits with
      | .ok backend => { w with backend, issued := w.issued ++ [w.backend.nextId] }
      | .error reason => { w with panicked := some reason }
    | .respondRpc peerId connId substreamId payload =>
      { w with backend := w.backend.respondRpc peerId connId substreamId payload }
    | .connection connId event => w.call connId event
    | .handlerEvent message =>
      { w with
        backend := { w.backend with rpc := w.backend.rpc.onConnectionHandlerEvent message } }
    | .swarm target =>
      match w.backend.rpc.events with
      | [] => w
      | action :: events =>
        Network.take target action { w with backend := { w.backend with rpc := ⟨events⟩ } }

end NetworkEvent

/-- The states of the network, whose connections are to given peers. -/
abbrev NetworkRun (peerOf : ConnectionId → PeerId) (w : Network R) : Prop :=
  Run NetworkEvent.apply (NetworkEvent.Possible peerOf) .new w

/-! ## Requests and their channels -/

/-- The invariant: where each request is, and which of them have a sender. -/
structure Network.Tracked (w : Network R) : Prop where
  sound : ∀ connId, (w.conns connId).Sound []
  accounted : ∀ connId, (w.conns connId).Accounted [] (w.conns connId).submitted
  relayed : ∀ connId, w.relayed connId <+: (w.conns connId).notified
  submitted : ∀ connId, ∀ id ∈ (w.conns connId).submitted, id ∈ w.issued
  apart : ∀ connId connId' id, id ∈ (w.conns connId).submitted → id ∈ (w.conns connId').submitted →
    connId = connId'
  waitingNodup : w.waiting.Nodup
  waiting : ∀ id ∈ w.waiting, id ∈ w.issued ∧ ∀ connId, id ∉ (w.conns connId).submitted
  issued : ∀ id ∈ w.issued, id < w.backend.nextId
  channels : ∀ id, id ∈ w.backend.rpcResponseChannels ↔ id ∈ w.issued ∧ ¬ w.HasEnded id
  forwarded : w.panicked ≠ some .missingChannel

variable {w : Network R} {connId : ConnectionId} {message : RPCMessage R}

lemma mem_eventsOf {messages : List (RPCMessage R)} (mem : message ∈ messages) :
    message.event ∈ eventsOf messages message.connId :=
  List.mem_map_of_mem (List.mem_filter.mpr ⟨mem, decide_eq_true rfl⟩)

lemma eventsOf_append {messages messages' : List (RPCMessage R)} :
    eventsOf (messages ++ messages') connId =
      eventsOf messages connId ++ eventsOf messages' connId := by
  rw [eventsOf, List.filter_append, List.map_append, eventsOf, eventsOf]

lemma eventsOf_self : eventsOf [message] message.connId = [message.event] := by simp [eventsOf]

lemma eventsOf_of_ne (ne : message.connId ≠ connId) : eventsOf [message] connId = [] := by
  simp [eventsOf, ne]

/-- A call leaves the other connections as they are. -/
lemma Network.forall_call {P : ConnectionId → Connection RequestId R → Prop}
    {event : ConnectionEvent RequestId R} (called : P connId (event.apply (w.conns connId)))
    (others : ∀ connId, P connId (w.conns connId)) :
    ∀ connId', P connId' ((w.call connId event).conns connId') :=
  (Function.forall_update_iff w.conns P).mpr ⟨called, fun connId' _ => others connId'⟩

section

variable {b b' : NetworkBackend R} {peerId : PeerId} {req : RPCRequest} {callerWaits : Bool}

lemma NetworkBackend.sendRpc_ok (e : b.sendRpc peerId req callerWaits = .ok b') :
    b' =
      { b with
        rpc := b.rpc.sendRequest peerId b.nextId req
        rpcResponseChannels := b.rpcResponseChannels.insert b.nextId []
        nextId := b.nextId + 1 } := by
  unfold sendRpc at e
  dsimp only at e
  split at e
  · split at e
    · cases e
      rfl
    · cases e
  · cases e

lemma NetworkBackend.sendRpc_error {reason : BackendPanic}
    (e : b.sendRpc peerId req callerWaits = .error reason) : reason ≠ .missingChannel := by
  unfold sendRpc at e
  dsimp only at e
  split at e
  · split at e
    · cases e
    · cases e
      exact BackendPanic.noConfusion
  · cases e
    exact BackendPanic.noConfusion

end

namespace Network.Tracked

/-- What reached the behaviour is about a request of the connection. -/
lemma names (h : w.Tracked) (mem : message ∈ w.reported ++ w.queued) :
    Names (w.conns message.connId).submitted message.event :=
  (h.accounted message.connId).named _ ((h.relayed message.connId).subset (mem_eventsOf mem))

lemma names_reported (h : w.Tracked) (mem : message ∈ w.reported) :
    Names (w.conns message.connId).submitted message.event :=
  h.names (List.mem_append_left _ mem)

variable {id : RequestId} {events : List (BehaviourAction R)}

section

variable (h : w.Tracked)

include h

lemma issued_of_ended (ended : w.HasEnded id) : id ∈ w.issued := by
  obtain ⟨termination, mem⟩ := ended
  obtain ⟨message, mem, e⟩ := List.mem_map.mp mem
  have hnames := h.names_reported mem
  rw [e] at hnames
  exact h.submitted _ id hnames

lemma issued_of_failed (failed : w.HasFailed id) :
    id ∈ w.issued := by
  obtain ⟨message, mem, proto, error, e⟩ := failed
  have hnames := h.names_reported mem
  rw [e] at hnames
  exact h.submitted _ id hnames

/-- A connection is called, and given requests that no connection was given before. -/
lemma call {event : ConnectionEvent RequestId R} (possible : event.Possible (w.conns connId))
    (nodup : event.given.Nodup) (fresh : ∀ id ∈ event.given, id ∈ w.issued ∧ id ∉ w.waiting ∧
      ∀ connId, id ∉ (w.conns connId).submitted) :
    (w.call connId event).Tracked := by
  have hsound := ConnectionEvent.apply_sound (h.sound connId) possible
  have haccounted : (event.apply (w.conns connId)).Accounted (w.conns connId).notified
      ((w.conns connId).submitted ++ event.given) := by
    refine ConnectionEvent.apply_accounted { h.accounted connId with earlier := List.prefix_rfl }
      (h.sound connId).alive possible ?_
    refine List.nodup_append'.mpr ⟨(h.accounted connId).nodup, nodup, ?_⟩
    exact fun id mem mem' => (fresh id mem').2.2 connId mem
  have hsubmitted : ∀ connId', ∀ id ∈ ((w.call connId event).conns connId').submitted,
      id ∈ (w.conns connId').submitted ∨ connId' = connId ∧ id ∈ event.given := by
    refine forall_call (P := fun connId' c => ∀ id ∈ c.submitted,
      id ∈ (w.conns connId').submitted ∨ connId' = connId ∧ id ∈ event.given) ?_ ?_
    · intro id mem
      rw [haccounted.submitted] at mem
      exact (List.mem_append.mp mem).imp_right fun mem => ⟨rfl, mem⟩
    · exact fun connId' id mem => .inl mem
  have haccounted' : (event.apply (w.conns connId)).Accounted []
      (event.apply (w.conns connId)).submitted := by
    rw [haccounted.submitted]
    exact { haccounted with earlier := List.nil_prefix }
  refine { h with sound := forall_call hsound h.sound,
                  accounted := forall_call (P := fun _ c => c.Accounted [] c.submitted) haccounted'
                    h.accounted,
                  relayed := forall_call (P := fun connId c => w.relayed connId <+: c.notified)
                    ((h.relayed connId).trans haccounted.earlier) h.relayed,
                  submitted := fun connId' id mem => ?_,
                  apart := fun connId₁ connId₂ id mem₁ mem₂ => ?_,
                  waiting := fun id mem => ⟨(h.waiting id mem).1, fun connId' mem' => ?_⟩ }
  · rcases hsubmitted connId' id mem with mem | ⟨_, mem⟩
    · exact h.submitted connId' id mem
    · exact (fresh id mem).1
  · rcases hsubmitted connId₁ id mem₁ with old₁ | ⟨rfl, given₁⟩
    · rcases hsubmitted connId₂ id mem₂ with old₂ | ⟨_, given₂⟩
      · exact h.apart connId₁ connId₂ id old₁ old₂
      · exact absurd old₁ ((fresh id given₂).2.2 connId₁)
    · rcases hsubmitted connId₂ id mem₂ with old₂ | ⟨rfl, _⟩
      · exact absurd old₂ ((fresh id given₁).2.2 connId₂)
      · rfl
  · rcases hsubmitted connId' id mem' with mem' | ⟨_, mem'⟩
    · exact (h.waiting id mem).2 connId' mem'
    · exact (fresh id mem').2.1 mem

variable {peerId : PeerId}

/-- A request is sent under a new id. -/
lemma sendRpc {req : RPCRequest} :
    Tracked
      { w with
        backend :=
          { w.backend with
            rpc := w.backend.rpc.sendRequest peerId w.backend.nextId req
            rpcResponseChannels := w.backend.rpcResponseChannels.insert w.backend.nextId []
            nextId := w.backend.nextId + 1 }
        issued := w.issued ++ [w.backend.nextId] } := by
  have hnew : w.backend.nextId ∉ w.issued := fun mem => Nat.lt_irrefl _ (h.issued _ mem)
  have hqueued : (w.backend.rpc.sendRequest peerId w.backend.nextId req).events.filterMap
      (·.message?) = w.queued := by
    simp [RPC.sendRequest, queued, BehaviourAction.message?]
  have hwaiting : (w.backend.rpc.sendRequest peerId w.backend.nextId req).events.filterMap
      (·.request?) = w.waiting ++ [w.backend.nextId] := by
    simp [RPC.sendRequest, Network.waiting, BehaviourAction.request?]
  refine { h with relayed := fun connId => ?_, submitted := fun connId id mem => ?_,
                  waitingNodup := ?_, waiting := fun id mem => ?_, issued := fun id mem => ?_,
                  channels := fun id => ?_ }
  · rw [Network.relayed, queued, hqueued]
    exact h.relayed connId
  · exact List.mem_append_left _ (h.submitted connId id mem)
  · rw [Network.waiting, hwaiting]
    refine List.nodup_append'.mpr ⟨h.waitingNodup, List.nodup_singleton _, ?_⟩
    intro id mem mem'
    rw [List.mem_singleton.mp mem'] at mem
    exact hnew (h.waiting _ mem).1
  · rw [Network.waiting, hwaiting] at mem
    rcases List.mem_append.mp mem with mem | mem
    · exact ⟨List.mem_append_left _ (h.waiting id mem).1, (h.waiting id mem).2⟩
    · rw [List.mem_singleton.mp mem]
      exact ⟨by simp, fun connId mem => hnew (h.submitted connId _ mem)⟩
  · rcases List.mem_append.mp mem with mem | mem
    · exact Nat.lt_succ_of_lt (h.issued id mem)
    · rw [List.mem_singleton.mp mem]
      exact Nat.lt_succ_self _
  · rw [Finmap.mem_insert, h.channels, List.mem_append, List.mem_singleton]
    constructor
    · rintro (rfl | ⟨mem, hended⟩)
      · exact ⟨.inr rfl, fun ended => hnew (h.issued_of_ended ended)⟩
      · exact ⟨.inl mem, hended⟩
    · rintro ⟨mem | rfl, hended⟩
      · exact .inr ⟨mem, hended⟩
      · exact .inl rfl

/-- A response to a request of a peer. -/
lemma respondRpc {connId : ConnectionId} {substreamId : SubstreamId}
    {payload : RPCCodedResponse R} :
    Tracked { w with backend := w.backend.respondRpc peerId connId substreamId payload } := by
  have hqueued : (w.backend.rpc.sendResponse peerId connId substreamId payload).events.filterMap
      (·.message?) = w.queued := by
    simp [RPC.sendResponse, queued, BehaviourAction.message?]
  have hwaiting : (w.backend.rpc.sendResponse peerId connId substreamId payload).events.filterMap
      (·.request?) = w.waiting := by
    simp [RPC.sendResponse, Network.waiting, BehaviourAction.request?]
  refine { h with relayed := fun connId => ?_, waitingNodup := ?_, waiting := ?_ }
  · rw [Network.relayed, queued, NetworkBackend.respondRpc, hqueued]
    exact h.relayed connId
  · rw [Network.waiting, NetworkBackend.respondRpc, hwaiting]
    exact h.waitingNodup
  · rw [Network.waiting, NetworkBackend.respondRpc, hwaiting]
    exact h.waiting

/-- The next event of a connection reaches the behaviour. -/
lemma handlerEvent
    (next : w.relayed message.connId ++ [message.event] <+: (w.conns message.connId).notified) :
    Tracked
      { w with
        backend := { w.backend with rpc := w.backend.rpc.onConnectionHandlerEvent message } } := by
  have hqueued : (w.backend.rpc.onConnectionHandlerEvent message).events.filterMap (·.message?) =
      w.queued ++ [message] := by
    simp [RPC.onConnectionHandlerEvent, queued, BehaviourAction.message?]
  have hwaiting : (w.backend.rpc.onConnectionHandlerEvent message).events.filterMap (·.request?) =
      w.waiting := by
    simp [RPC.onConnectionHandlerEvent, Network.waiting, BehaviourAction.request?]
  refine { h with relayed := fun connId => ?_, waitingNodup := ?_, waiting := ?_ }
  · rw [Network.relayed, queued, hqueued, ← List.append_assoc, eventsOf_append]
    by_cases e : message.connId = connId
    · subst e
      rw [eventsOf_self]
      exact next
    · rw [eventsOf_of_ne e, List.append_nil]
      exact h.relayed connId
  · rw [Network.waiting, hwaiting]
    exact h.waitingNodup
  · rw [Network.waiting, hwaiting]
    exact h.waiting

/-- The swarm takes an action of the behaviour that is not for the backend. -/
lemma pop {action : BehaviourAction R} (e : w.backend.rpc.events = action :: events)
    (other : action.message? = none) :
    Tracked { w with backend := { w.backend with rpc := ⟨events⟩ } } := by
  have hqueued : events.filterMap (·.message?) = w.queued := by
    rw [queued, e, List.filterMap_cons_none other]
  have hwaiting : (events.filterMap (·.request?)).Sublist w.waiting := by
    rw [Network.waiting, e]
    exact (List.sublist_cons_self action events).filterMap _
  refine { h with relayed := fun connId => ?_, waitingNodup := h.waitingNodup.sublist hwaiting,
                  waiting := fun id mem => h.waiting id (hwaiting.subset mem) }
  rw [Network.relayed, queued, hqueued]
  exact h.relayed connId

/-- What the behaviour sends is handed to a connection. -/
lemma notifyHandler {handler : NotifyHandler} {event : RPCSend R}
    (e : w.backend.rpc.events = .notifyHandler peerId handler event :: events) :
    Tracked (Network.call connId event.call
      { w with backend := { w.backend with rpc := ⟨events⟩ } }) := by
  refine (h.pop e rfl).call ?_ ?_ fun id mem => ?_
  · cases event <;> trivial
  · cases event with
    | request => exact List.nodup_singleton _
    | response => exact List.nodup_nil
  · cases event with
    | response => cases mem
    | request id' req =>
      obtain rfl := List.mem_singleton.mp mem
      have hwaiting : w.waiting = id :: events.filterMap (·.request?) := by
        rw [Network.waiting, e]
        rfl
      have hid := h.waiting id (hwaiting ▸ List.mem_cons_self)
      have hnodup := h.waitingNodup
      rw [hwaiting, List.nodup_cons] at hnodup
      exact ⟨hid.1, hnodup.1, hid.2⟩

end

lemma hasEnded_report {w' : Network R} (e : w'.reported = w.reported ++ [message]) :
    w'.HasEnded id ↔
      w.HasEnded id ∨ ∃ termination, message.event = .ok (.endOfStream id termination) := by
  rw [HasEnded, HasEnded, e, List.map_append, List.map_singleton]
  unfold Ended
  simp only [List.mem_append, List.mem_singleton, exists_or, eq_comm]

/-- A message is reported to the backend, which removes the sender of a stream that ended. -/
lemma report (h : w.Tracked) (e : w.backend.rpc.events = .generateEvent message :: events)
    {backend : NetworkBackend R} (hevents : backend.rpc.events = events)
    (hnext : backend.nextId = w.backend.nextId)
    (hchannels : ∀ id, id ∈ backend.rpcResponseChannels ↔ id ∈ w.backend.rpcResponseChannels ∧
      ¬ ∃ termination, message.event = .ok (.endOfStream id termination)) :
    Tracked { w with backend, reported := w.reported ++ [message] } := by
  have hqueued : w.queued = message :: backend.rpc.events.filterMap (·.message?) := by
    rw [queued, e, hevents]
    rfl
  have hwaiting : backend.rpc.events.filterMap (·.request?) = w.waiting := by
    rw [Network.waiting, e, List.filterMap_cons_none rfl, hevents]
  refine { h with relayed := fun connId => ?_, waitingNodup := ?_, waiting := ?_, issued := ?_,
                  channels := fun id => ?_ }
  · rw [Network.relayed, queued, List.append_assoc, List.singleton_append, ← hqueued]
    exact h.relayed connId
  · rw [Network.waiting, hwaiting]
    exact h.waitingNodup
  · rw [Network.waiting, hwaiting]
    exact h.waiting
  · rw [hnext]
    exact h.issued
  · refine (hchannels id).trans ?_
    rw [h.channels, and_assoc, ← not_or]
    exact and_congr_right fun _ => not_congr (hasEnded_report rfl).symm

/-- There is a sender for each response that is reported. -/
lemma sender (h : w.Tracked) {response : R}
    (e : w.backend.rpc.events = .generateEvent message :: events)
    (he : message.event = .ok (.response id response)) : id ∈ w.backend.rpcResponseChannels := by
  have hqueued : w.queued = message :: events.filterMap (·.message?) := by
    rw [queued, e]
    rfl
  have hid : id ∈ (w.conns message.connId).submitted := by
    have hnames : Names (w.conns message.connId).submitted message.event :=
      h.names (List.mem_append_right _ (hqueued ▸ List.mem_cons_self))
    rwa [he] at hnames
  refine (h.channels id).mpr ⟨h.submitted _ id hid, ?_⟩
  rintro ⟨termination, mem⟩
  obtain ⟨message', mem, he'⟩ := List.mem_map.mp mem
  -- the end was reported by the same connection, and before the response
  have hid' := h.names_reported mem
  rw [he'] at hid'
  have hconn := h.apart _ _ id hid' hid
  have horder := (h.accounted message.connId).order.sublist (h.relayed message.connId).sublist
  rw [Network.relayed, eventsOf_append, List.pairwise_append] at horder
  refine horder.2.2 message'.event (hconn ▸ mem_eventsOf mem) message.event
    (mem_eventsOf (hqueued ▸ List.mem_cons_self)) ?_
  exact ⟨id, termination, response, he', he⟩

/-- An event of the RPC behaviour. -/
lemma onEth2Rpc (h : w.Tracked) (e : w.backend.rpc.events = .generateEvent message :: events)
    {target : Option ConnectionId} :
    Tracked (Network.take target (.generateEvent message)
      { w with backend := { w.backend with rpc := ⟨events⟩ } }) := by
  unfold Network.take NetworkBackend.onEth2Rpc
  dsimp only
  cases he : message.event with
  | ok received =>
    cases received with
    | request => exact h.report e rfl rfl fun id => by simp [he]
    | response id response =>
      obtain ⟨sent, hlookup⟩ := Finmap.mem_iff.mp (h.sender e he)
      simp only [hlookup]
      refine h.report e rfl rfl fun id' => ?_
      rw [mem_insert_of_lookup hlookup]
      simp [he]
    | endOfStream id termination =>
      refine h.report e rfl rfl fun id' => ?_
      rw [Finmap.mem_erase, he]
      constructor
      · rintro ⟨ne, mem⟩
        refine ⟨mem, ?_⟩
        rintro ⟨_, e'⟩
        cases e'
        exact ne rfl
      · rintro ⟨mem, hended⟩
        refine ⟨?_, mem⟩
        rintro rfl
        exact hended ⟨termination, rfl⟩
  | error err =>
    cases err with
    | inbound => exact h.report e rfl rfl fun id => by simp [he]
    | outbound => exact h.report e rfl rfl fun id => by simp [he]

end Network.Tracked

/-- The swarm by itself gives no request to a connection. -/
lemma ConnectionEvent.Own.given_eq {event : ConnectionEvent RequestId R} (own : event.Own) :
    event.given = [] := by
  cases event with
  | request => exact own.elim
  | response => exact own.elim
  | shutdown => exact own.elim
  | fullyNegotiatedInbound => rfl
  | fullyNegotiatedOutbound => rfl
  | dialUpgradeError => rfl
  | poll => rfl

variable {peerOf : ConnectionId → PeerId}

/-- Every event keeps the invariant. -/
lemma NetworkEvent.apply_tracked {event : NetworkEvent R} (h : w.Tracked)
    (possible : event.Possible peerOf w) : (event.apply w).Tracked := by
  unfold apply
  split
  case isTrue => exact h
  case isFalse =>
    cases event with
    | sendRpc peerId req callerWaits =>
      dsimp only
      split
      case h_1 backend e =>
        obtain rfl := NetworkBackend.sendRpc_ok e
        exact h.sendRpc
      case h_2 reason e =>
        refine { h with forwarded := fun e' => ?_ }
        exact NetworkBackend.sendRpc_error e (Option.some.inj e')
    | respondRpc peerId connId substreamId payload => exact h.respondRpc
    | connection connId event =>
      refine h.call possible.2 ?_ ?_
      · rw [possible.1.given_eq]
        exact List.nodup_nil
      · rw [possible.1.given_eq]
        exact fun _ mem => absurd mem List.not_mem_nil
    | handlerEvent message => exact h.handlerEvent possible.2
    | swarm target =>
      dsimp only
      split
      case h_1 => exact h
      case h_2 action events e =>
        cases action with
        | generateEvent message => exact h.onEth2Rpc e
        | notifyHandler peerId handler event =>
          cases target with
          | none => exact h.pop e rfl
          | some connId => exact h.notifyHandler e

lemma Network.Tracked.new : (Network.new : Network R).Tracked where
  sound connId := ConnectionRun.sound .refl
  accounted connId := .new
  relayed connId := List.nil_prefix
  submitted connId id mem := absurd mem List.not_mem_nil
  apart connId connId' id mem := absurd mem List.not_mem_nil
  waitingNodup := List.nodup_nil
  waiting id mem := absurd mem List.not_mem_nil
  issued id mem := absurd mem List.not_mem_nil
  channels id := by
    constructor
    · exact fun mem => absurd mem Finmap.notMem_empty
    · exact fun h => absurd h.1 List.not_mem_nil
  forwarded e := by cases e

lemma NetworkRun.tracked (run : NetworkRun peerOf w) : w.Tracked :=
  run.invariant (I := Network.Tracked) .new fun _ _ h possible =>
    NetworkEvent.apply_tracked h possible

end

/-- In every run there is a sender for each response that is forwarded. A request has a sender
exactly while neither the end of its stream nor an error of it was reported, if and only if the
stream of every request that failed has ended too. -/
theorem responseChannels_iff {R : Type} {peerOf : ConnectionId → PeerId} {w : Network R}
    (run : NetworkRun peerOf w) :
    w.panicked ≠ some .missingChannel ∧
      ((∀ id, id ∈ w.backend.rpcResponseChannels ↔
          id ∈ w.issued ∧ ¬ w.HasEnded id ∧ ¬ w.HasFailed id) ↔
        ∀ id, w.HasFailed id → w.HasEnded id) := by
  have h := run.tracked
  refine ⟨h.forwarded, ?_, ?_⟩
  · intro hsenders id failed
    by_contra ended
    have mem := (h.channels id).mpr ⟨h.issued_of_failed failed, ended⟩
    exact ((hsenders id).mp mem).2.2 failed
  · intro hended id
    rw [h.channels]
    refine and_congr_right fun _ => ⟨fun ended => ⟨ended, ?_⟩, fun h => h.1⟩
    exact fun failed => ended (hended id failed)

/-- A network after some events. -/
def Network.toy (events : List (NetworkEvent Nat)) : Network Nat :=
  events.foldl (fun w event => event.apply w) .new

/-- A request for two blocks, for which a substream was asked. -/
def NetworkEvent.dialled : List (NetworkEvent Nat) :=
  [.sendRpc 0 (.blocksByRange ⟨0, 2⟩) true, .swarm (some 0), .connection 0 (.poll .quiet)]

lemma Network.toy_dialled : NetworkRun (fun _ => 0) (Network.toy NetworkEvent.dialled) := by
  have sent : NetworkRun (fun _ => 0) (Network.toy [.sendRpc 0 (.blocksByRange ⟨0, 2⟩) true]) :=
    .snoc .refl (NetworkEvent.sendRpc 0 (.blocksByRange ⟨0, 2⟩) true) trivial
  have given := sent.snoc (.swarm (some 0)) fun connId peerId handler event _ e => by
    cases e
    exact ⟨rfl, .inl rfl⟩
  exact given.snoc (.connection 0 (.poll .quiet)) ⟨trivial, PollEnv.quiet_visits rfl rfl⟩

/-- A poll during which the peer closes the first outbound substream. -/
def PollEnv.closedByPeer : PollEnv Nat :=
  { (PollEnv.quiet : PollEnv Nat) with
    outboundOrder := [0]
    stream := fun _ => some none }

lemma PollEnv.closedByPeer_visits {c : Connection Nat Nat} (inbound : c.inboundSubstreams = ∅)
    (outbound : c.outboundSubstreams.keys = {0}) : PollEnv.closedByPeer.Visits c where
  inboundNodup := List.nodup_nil
  inbound id := by simp [closedByPeer, quiet, inbound, Finmap.notMem_empty]
  outboundNodup := List.nodup_singleton 0
  outbound id := by
    rw [← Finmap.mem_keys, outbound, Finset.mem_singleton]
    exact List.mem_singleton

/-- The stream of the request ends. -/
def Network.ended : Network Nat :=
  Network.toy (NetworkEvent.dialled ++
    [.connection 0 (.fullyNegotiatedOutbound 0 (.blocksByRange ⟨0, 2⟩)),
      .connection 0 (.poll .closedByPeer),
      .handlerEvent ⟨0, 0, .ok (.endOfStream 0 .blocksByRange)⟩, .swarm none])

/-- The sender is removed. -/
theorem responseChannels_ended :
    Network.ended.HasEnded 0 ∧ 0 ∉ Network.ended.backend.rpcResponseChannels := by
  have negotiated := Network.toy_dialled.snoc
    (.connection 0 (.fullyNegotiatedOutbound 0 (.blocksByRange ⟨0, 2⟩)))
    ⟨trivial, List.mem_singleton.mpr rfl⟩
  have closed := negotiated.snoc (.connection 0 (.poll .closedByPeer))
    ⟨trivial, PollEnv.closedByPeer_visits rfl (by decide)⟩
  have relayed := closed.snoc (.handlerEvent ⟨0, 0, .ok (.endOfStream 0 .blocksByRange)⟩)
    ⟨rfl, List.prefix_rfl⟩
  have run : NetworkRun (fun _ => 0) Network.ended :=
    relayed.snoc (.swarm none) fun _ _ _ _ e => by cases e
  have ended : Network.ended.HasEnded 0 := ⟨_, List.mem_singleton.mpr rfl⟩
  have senders := (responseChannels_iff run).2.mpr fun id failed => by
    obtain ⟨message, mem, _, _, e⟩ := failed
    rw [List.mem_singleton.mp mem] at e
    cases e
  exact ⟨ended, fun mem => ((senders 0).mp mem).2.1 ended⟩

/-- The dial of the request fails. -/
def Network.failed : Network Nat :=
  Network.toy (NetworkEvent.dialled ++
    [.connection 0 (.dialUpgradeError 0 (.blocksByRange ⟨0, 2⟩) .timeout),
      .connection 0 (.poll .quiet),
      .handlerEvent ⟨0, 0, .error (.outbound 0 .blocksByRange .negotiationTimeout)⟩, .swarm none])

/-- After the error the sender is still there. -/
theorem responseChannels_fails :
    ¬ ∀ (R : Type) (peerOf : ConnectionId → PeerId) (w : Network R), NetworkRun peerOf w →
      ∀ id, id ∈ w.backend.rpcResponseChannels ↔
        id ∈ w.issued ∧ ¬ w.HasEnded id ∧ ¬ w.HasFailed id := by
  intro all
  have dialled := Network.toy_dialled.snoc
    (.connection 0 (.dialUpgradeError 0 (.blocksByRange ⟨0, 2⟩) .timeout))
    ⟨trivial, List.mem_singleton.mpr rfl⟩
  have returned := dialled.snoc (.connection 0 (.poll .quiet))
    ⟨trivial, PollEnv.quiet_visits rfl rfl⟩
  have relayed := returned.snoc
    (.handlerEvent ⟨0, 0, .error (.outbound 0 .blocksByRange .negotiationTimeout)⟩)
    ⟨rfl, List.prefix_rfl⟩
  have run : NetworkRun (fun _ => 0) Network.failed :=
    relayed.snoc (.swarm none) fun _ _ _ _ e => by cases e
  have mem : 0 ∈ Network.failed.backend.rpcResponseChannels := Finmap.mem_insert.mpr (.inl rfl)
  have failed : Network.failed.HasFailed 0 := ⟨_, List.mem_singleton.mpr rfl, _, _, rfl⟩
  exact ((all Nat _ _ run 0).mp mem).2.2 failed

end Alys.Rpc
