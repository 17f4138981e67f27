import Alys.Lib.Action
import Alys.Lib.Maps
import Alys.Network.Requests

/-!
# The handler of a connection

Model of `app/src/network/rpc/handler.rs`, the handler that sends requests and responses over the
substreams of one connection. It is driven by `poll`, which goes through its stages until one of
them has something to return, and by the events that the connection reports.

What the substreams and timers answer during a poll is the argument of the poll, as is the order in
which the maps of substreams are gone through. Answers are taken as they come: any of them may be
`Pending`, an error or a success. A timer may expire at any poll while it is pending.

The state records besides the fields of the handler what it handed out: the events that `poll`
returned, the responses that the substreams took, and the substream requests that were neither
negotiated nor failed. A panic ends the process; the state is then that at the panic.
-/

namespace Alys.Rpc
open Lib

/-! ## Messages -/

/-- `SubstreamId`. -/
abbrev SubstreamId := Nat

inductive RPCResponseErrorCode where
  | rateLimited
  | invalidRequest
  | serverError
  | resourceUnavailable
  | unknown
  deriving DecidableEq

inductive ResponseTermination where
  | blocksByRange
  deriving DecidableEq

/-- `RPCCodedResponse`, for responses in `R`. -/
inductive RPCCodedResponse (R : Type) where
  | success (response : R)
  | error (code : RPCResponseErrorCode) (reason : Text)
  | streamTermination (termination : ResponseTermination)
  deriving DecidableEq

namespace RPCCodedResponse

variable {R : Type}

/-- `RPCCodedResponse::close_after`. -/
def closeAfter : RPCCodedResponse R → Bool
  | .success _ => false
  | .error .. => true
  | .streamTermination _ => true

def isError : RPCCodedResponse R → Bool
  | .success _ => false
  | .error .. => true
  | .streamTermination _ => false

def isStreamTermination : RPCCodedResponse R → Bool
  | .success _ => false
  | .error .. => false
  | .streamTermination _ => true

end RPCCodedResponse

inductive RPCError where
  | sszDecodeError
  | codecError
  | ioError (e : Text)
  | errorResponse (code : RPCResponseErrorCode) (reason : Text)
  | streamTimeout
  | unsupportedProtocol
  | incompleteStream
  | invalidData (e : Text)
  | internalError (e : Text)
  | negotiationTimeout
  | handlerRejected
  | disconnected
  deriving DecidableEq

/-- `StreamUpgradeError<RPCError>`. -/
inductive StreamUpgradeError where
  | timeout
  | apply (error : RPCError)
  | negotiationFailed
  | io (e : Text)
  deriving DecidableEq

inductive HandlerErr (Id : Type) where
  | inbound (id : SubstreamId) (proto : Protocol) (error : RPCError)
  | outbound (id : Id) (proto : Protocol) (error : RPCError)
  deriving DecidableEq

inductive RPCReceived (Id R : Type) where
  | request (id : SubstreamId) (req : RPCRequest)
  | response (id : Id) (response : R)
  | endOfStream (id : Id) (termination : ResponseTermination)
  deriving DecidableEq

abbrev HandlerEvent (Id R : Type) := Except (HandlerErr Id) (RPCReceived Id R)

/-- What `poll` returns when it is ready. -/
inductive ConnectionHandlerEvent (Id R : Type) where
  | notifyBehaviour (event : HandlerEvent Id R)
  | close (error : RPCError)
  | outboundSubstreamRequest (id : Id) (req : RPCRequest)

/-- `OutboundRequest::stream_termination`, which is not reached for the other requests. -/
def streamTermination : RPCRequest → Option ResponseTermination
  | .blocksByRange _ => some .blocksByRange
  | .status .. => none
  | .goodbye _ => none
  | .ping _ => none
  | .metaData => none

/-! ## Sending a response -/

/-- `Poll`: `none` stands for `Pending`. -/
abbrev Poll (α : Type) := Option α

/-- What a substream answers while a response is sent: whether it takes it, whether that is flushed,
and whether the substream is closed. -/
structure SinkAnswer where
  ready : Poll (Except RPCError Unit)
  flush : Poll (Except RPCError Unit)
  close : Poll (Except RPCError Unit)

/-- The states of the future of `send_message_to_inbound_substream`. -/
inductive SendFuture (R : Type) where
  | sending (message : RPCCodedResponse R) (lastChunk : Bool)
  | flushing (message : RPCCodedResponse R) (lastChunk : Bool)
  | closing (sendResult : Except RPCError Unit)

/-- A poll of the future: it is not done, or has a result, which says whether the substream was
closed. -/
inductive SendPoll (R : Type) where
  | pending (fut : SendFuture R)
  | ready (result : Except RPCError Bool)

namespace SendFuture

variable {R : Type}

def pollClose (answer : SinkAnswer) (sendResult : Except RPCError Unit) : SendPoll R :=
  match answer.close with
  | none => .pending (.closing sendResult)
  | some closeResult =>
    match sendResult with
    | .error e => .ready (.error e)
    | .ok () => .ready (closeResult.map fun _ => true)

def pollFlush (answer : SinkAnswer) (message : RPCCodedResponse R) (lastChunk : Bool) :
    SendPoll R :=
  match answer.flush with
  | none => .pending (.flushing message lastChunk)
  | some (.error e) => pollClose answer (.error e)
  | some (.ok ()) =>
    if lastChunk || message.isError then pollClose answer (.ok ()) else .ready (.ok false)

/-- A poll of the future, with the messages that the substream takes. A stream termination is sent
by closing the substream. -/
def poll (answer : SinkAnswer) : SendFuture R → List (RPCCodedResponse R) × SendPoll R
  | .sending message lastChunk =>
    if message.isStreamTermination then
      ([message], pollClose answer (.ok ()))
    else
      match answer.ready with
      | none => ([], .pending (.sending message lastChunk))
      | some (.error e) => ([], pollClose answer (.error e))
      | some (.ok ()) => ([message], pollFlush answer message lastChunk)
  | .flushing message lastChunk => ([], pollFlush answer message lastChunk)
  | .closing sendResult => ([], pollClose answer sendResult)

end SendFuture

/-! ## The state -/

inductive HandlerState where
  | active
  | shuttingDown
  | deactivated
  deriving DecidableEq

inductive InboundState (R : Type) where
  | idle
  | busy (fut : SendFuture R)
  | poisoned

/-- `InboundInfo`. The key of a timer is the id of its substream. -/
structure InboundInfo (R : Type) where
  state : InboundState R
  pendingItems : List (RPCCodedResponse R)
  protocol : Protocol
  remainingChunks : Nat
  delayKey : Option SubstreamId

inductive OutboundSubstreamState where
  | requestPendingResponse (request : RPCRequest)
  | closing
  | poisoned
  deriving DecidableEq

structure OutboundInfo (Id : Type) where
  state : OutboundSubstreamState
  delayKey : SubstreamId
  proto : Protocol
  remainingChunks : Option Nat
  reqId : Id
  deriving DecidableEq

/-- `RPCHandler`. The delay queues hold the ids whose timers are pending. -/
structure RPCHandler (Id R : Type) where
  eventsOut : List (HandlerEvent Id R)
  dialQueue : List (Id × RPCRequest)
  dialNegotiated : Nat
  inboundSubstreams : Map SubstreamId (InboundInfo R)
  inboundSubstreamsDelay : List SubstreamId
  outboundSubstreams : Map SubstreamId (OutboundInfo Id)
  outboundSubstreamsDelay : List SubstreamId
  currentInboundSubstreamId : SubstreamId
  currentOutboundSubstreamId : SubstreamId
  maxDialNegotiated : Nat
  state : HandlerState
  outboundIoErrorRetries : Nat

inductive HandlerPanic where
  /-- a subtraction from zero -/
  | underflow
  /-- a substream that was left in its temporary state -/
  | poisoned
  /-- the timer of a key that is not pending -/
  | timer
  /-- another place that is marked as unreachable -/
  | unreachable
  deriving DecidableEq

/-- A handler with what it handed out. -/
structure Connection (Id R : Type) extends RPCHandler Id R where
  /-- the events that `poll` returned -/
  returned : List (ConnectionHandlerEvent Id R)
  /-- the responses that the inbound substreams took -/
  written : List (SubstreamId × RPCCodedResponse R)
  /-- the inbound requests for which a substream was kept -/
  accepted : List (SubstreamId × RPCRequest)
  /-- the requests that were given to the handler -/
  submitted : List Id
  /-- the outbound substream requests whose negotiation has neither succeeded nor failed -/
  negotiating : List (Id × RPCRequest)
  /-- the number of failed negotiations after which the request was sent again -/
  retried : Nat
  panicked : Option HandlerPanic

/-- `IO_ERROR_RETRIES`. -/
def ioErrorRetries : Nat := 3

/-- `MAX_INBOUND_SUBSTREAMS`. -/
def maxInboundSubstreams : Nat := 32

/-- `RPCHandler::new`. -/
def Connection.new {Id R : Type} : Connection Id R where
  eventsOut := []
  dialQueue := []
  dialNegotiated := 0
  inboundSubstreams := ∅
  inboundSubstreamsDelay := []
  outboundSubstreams := ∅
  outboundSubstreamsDelay := []
  currentInboundSubstreamId := 0
  currentOutboundSubstreamId := 0
  maxDialNegotiated := 8
  state := .active
  outboundIoErrorRetries := 0
  returned := []
  written := []
  accepted := []
  submitted := []
  negotiating := []
  retried := 0
  panicked := none

/-! ## Requests and responses -/

/-- How a call ends before its end. -/
inductive Exit where
  | returned
  | panicked

abbrev HandlerM (Id R α : Type) := Action (Connection Id R) Exit α

section

variable {Id R α : Type}

def panic (reason : HandlerPanic) : HandlerM Id R α := do
  Action.modify fun c => { c with panicked := some reason }
  Action.fail .panicked

/-- `return Poll::Ready(event)`. -/
def ready (event : ConnectionHandlerEvent Id R) : HandlerM Id R α := do
  Action.modify fun c => { c with returned := c.returned ++ [event] }
  Action.fail .returned

/-- `RPCHandler::shutdown`. The requests that wait for their turn are dropped from the end. -/
def shutdown (goodbyeReason : Option (Id × Nat)) (c : Connection Id R) : Connection Id R :=
  if c.state = .active then
    { c with
      eventsOut := c.eventsOut ++
        c.dialQueue.reverse.map fun p => .error (.outbound p.1 p.2.protocol .disconnected)
      dialQueue := (goodbyeReason.map fun p => (p.1, .goodbye p.2)).toList
      state := .shuttingDown }
  else
    c

/-- `RPCHandler::send_request`. -/
def sendRequest (id : Id) (req : RPCRequest) (c : Connection Id R) : Connection Id R :=
  if c.state = .active then
    { c with dialQueue := c.dialQueue ++ [(id, req)] }
  else
    { c with eventsOut := c.eventsOut ++ [.error (.outbound id req.protocol .disconnected)] }

/-- The report of a response that is an error. -/
def reportError (id : SubstreamId) (protocol : Protocol) :
    RPCCodedResponse R → List (HandlerEvent Id R)
  | .success _ => []
  | .error code reason => [.error (.inbound id protocol (.errorResponse code reason))]
  | .streamTermination _ => []

/-- `RPCHandler::send_response`. -/
def sendResponse (inboundId : SubstreamId) (response : RPCCodedResponse R)
    (c : Connection Id R) : Connection Id R :=
  match c.inboundSubstreams.lookup inboundId with
  | none => c
  | some info =>
    let c := { c with eventsOut := c.eventsOut ++ reportError inboundId info.protocol response }
    if c.state = .deactivated then
      c
    else
      { c with
        inboundSubstreams := c.inboundSubstreams.insert inboundId
          { info with pendingItems := info.pendingItems ++ [response] } }

/-! ## Negotiation -/

/-- `RPCHandler::on_fully_negotiated_inbound`. -/
def onFullyNegotiatedInbound (req : RPCRequest) (c : Connection Id R) : Connection Id R :=
  if c.state = .active then
    let id := c.currentInboundSubstreamId
    if 0 < req.expectedResponses ∧ ¬ c.inboundSubstreams.keys.card < maxInboundSubstreams then
      shutdown none
        { c with
          eventsOut := c.eventsOut ++ [.error (.inbound id req.protocol .handlerRejected)] }
    else
      let c :=
        if 0 < req.expectedResponses then
          { c with
            inboundSubstreamsDelay := c.inboundSubstreamsDelay ++ [id]
            inboundSubstreams := c.inboundSubstreams.insert id
              ⟨.idle, [], req.protocol, req.expectedResponses, some id⟩
            accepted := c.accepted ++ [(id, req)] }
        else
          c
      let c := if req.protocol = .goodbye then shutdown none c else c
      { c with
        eventsOut := c.eventsOut ++ [.ok (.request id req)]
        currentInboundSubstreamId := id + 1 }
  else
    c

/-- `self.dial_negotiated -= 1`. -/
def releaseDial : HandlerM Id R Unit := do
  let c ← Action.get
  if c.dialNegotiated = 0 then
    panic .underflow
  else
    Action.modify fun c => { c with dialNegotiated := c.dialNegotiated - 1 }

/-- The number of responses that is kept with a request: one response is not counted. -/
def expectedChunks (req : RPCRequest) : Option Nat :=
  if 1 < req.expectedResponses then some req.expectedResponses else none

/-- The stream is kept if a response is expected, and dropped otherwise. -/
def storeOutbound (id : Id) (req : RPCRequest) (c : Connection Id R) : Connection Id R :=
  if 0 < req.expectedResponses then
    let substreamId := c.currentOutboundSubstreamId
    { c with
      outboundSubstreamsDelay := c.outboundSubstreamsDelay ++ [substreamId]
      outboundSubstreams := c.outboundSubstreams.insert substreamId
        ⟨.requestPendingResponse req, substreamId, req.protocol, expectedChunks req, id⟩
      currentOutboundSubstreamId := substreamId + 1 }
  else
    c

/-- The report of a substream that comes too late. The stream is kept nevertheless. -/
def reportDeactivated (id : Id) (req : RPCRequest) (c : Connection Id R) : Connection Id R :=
  if c.state = .deactivated then
    { c with eventsOut := c.eventsOut ++ [.error (.outbound id req.protocol .disconnected)] }
  else
    c

variable [DecidableEq Id]

/-- `RPCHandler::on_fully_negotiated_outbound`. -/
def onFullyNegotiatedOutbound (id : Id) (req : RPCRequest) : HandlerM Id R Unit := do
  Action.modify fun c => { c with negotiating := c.negotiating.erase (id, req) }
  releaseDial
  Action.modify fun c => { c with outboundIoErrorRetries := 0 }
  Action.modify (reportDeactivated id req)
  Action.modify (storeOutbound id req)

/-- The text of an I/O error, which is tried again. -/
def StreamUpgradeError.ioError? : StreamUpgradeError → Option Text
  | .timeout => none
  | .apply (.ioError e) => some e
  | .apply _ => none
  | .negotiationFailed => none
  | .io e => some e

/-- The error that is reported. -/
def StreamUpgradeError.map : StreamUpgradeError → RPCError
  | .timeout => .negotiationTimeout
  | .apply error => error
  | .negotiationFailed => .unsupportedProtocol
  | .io e => .ioError e

/-- `RPCHandler::on_dial_upgrade_error`. -/
def onDialUpgradeError (id : Id) (req : RPCRequest) (error : StreamUpgradeError) :
    HandlerM Id R Unit := do
  Action.modify fun c => { c with negotiating := c.negotiating.erase (id, req) }
  let c ← Action.get
  if error.ioError?.isSome ∧ c.outboundIoErrorRetries + 1 < ioErrorRetries then
    Action.modify fun c =>
      sendRequest id req
        { c with
          outboundIoErrorRetries := c.outboundIoErrorRetries + 1
          retried := c.retried + 1 }
  else
    releaseDial
    Action.modify fun c =>
      { c with
        outboundIoErrorRetries := 0
        eventsOut := c.eventsOut ++ [.error (.outbound id req.protocol error.map)] }

end

/-! ## Polling -/

/-- The timers that expire during a poll, and whether the queue then fails. -/
structure TimerPoll where
  expired : List SubstreamId
  failed : Bool

/-- What is outside the handler answers during a poll. -/
structure PollEnv (R : Type) where
  shutdownElapsed : Bool
  inboundTimer : TimerPoll
  outboundTimer : TimerPoll
  /-- the order in which the inbound substreams are gone through -/
  inboundOrder : List SubstreamId
  outboundOrder : List SubstreamId
  /-- the answers of an inbound substream to the polls of its futures, one after the other -/
  sink : SubstreamId → List SinkAnswer
  /-- the answer of an idle inbound substream that is to be closed -/
  close : SubstreamId → Poll (Except RPCError Unit)
  /-- the next response of an outbound substream, or its end -/
  stream : SubstreamId → Poll (Option (Except RPCError (RPCCodedResponse R)))
  /-- whether an outbound substream is closed -/
  closed : SubstreamId → Bool

section

variable {Id R : Type}

/-- The events that wait are returned one by one. -/
def pollEventsOut : HandlerM Id R Unit := do
  let c ← Action.get
  match c.eventsOut with
  | [] => pure ()
  | event :: eventsOut =>
    Action.modify fun c => { c with eventsOut }
    ready (.notifyBehaviour event)

def pollShutdown (env : PollEnv R) : HandlerM Id R Unit := do
  let c ← Action.get
  if c.state = .shuttingDown ∧ env.shutdownElapsed then
    Action.modify fun c => { c with state := .deactivated }
    ready (.close .disconnected)

/-! ### Timers -/

/-- Whether the last response that waits leaves the substream open. -/
def leftOpen (pendingItems : List (RPCCodedResponse R)) : Bool :=
  pendingItems.getLast?.elim false (!·.closeAfter)

/-- An inbound substream whose timer expired. -/
def InboundInfo.expire (info : InboundInfo R) : InboundInfo R :=
  { info with
    delayKey := none
    pendingItems :=
      if leftOpen info.pendingItems then
        info.pendingItems ++ [.error .serverError "Request timed out".toList]
      else
        info.pendingItems }

def expireInbound (id : SubstreamId) : HandlerM Id R Unit := do
  let c ← Action.get
  -- only a timer that is pending can expire
  if id ∈ c.inboundSubstreamsDelay then
    Action.modify fun c =>
      { c with inboundSubstreamsDelay := c.inboundSubstreamsDelay.erase id }
    match c.inboundSubstreams.lookup id with
    | none => pure ()
    | some info =>
      Action.modify fun c =>
        { c with
          inboundSubstreams := c.inboundSubstreams.insert id info.expire
          eventsOut := c.eventsOut ++ [.error (.inbound id info.protocol .streamTimeout)] }

def expireOutbound (id : SubstreamId) : HandlerM Id R Unit := do
  let c ← Action.get
  if id ∈ c.outboundSubstreamsDelay then
    Action.modify fun c =>
      { c with outboundSubstreamsDelay := c.outboundSubstreamsDelay.erase id }
    match c.outboundSubstreams.lookup id with
    | none => pure ()
    | some info =>
      Action.modify fun c => { c with outboundSubstreams := c.outboundSubstreams.erase id }
      ready (.notifyBehaviour (.error (.outbound info.reqId info.proto .streamTimeout)))

/-- A loop over the timers that expired. -/
def pollTimer (timer : TimerPoll) (expire : SubstreamId → HandlerM Id R Unit) (text : Text) :
    HandlerM Id R Unit := do
  Action.forEach timer.expired expire
  if timer.failed then
    ready (.close (.internalError text))

/-! ### Inbound substreams -/

/-- What the loop over one inbound substream did. -/
structure Driven (R : Type) where
  info : InboundInfo R
  written : List (RPCCodedResponse R)
  /-- the errors that are reported -/
  errors : List RPCError
  /-- whether its timer was set again or removed -/
  timer : Bool
  /-- whether it is to be removed; its state is then the temporary one -/
  remove : Bool

/-- The loop while the substream is busy. When a response is sent, the next one that waits is. -/
def driveBusy (deactivated : Bool) : List (RPCCodedResponse R) → List SinkAnswer → InboundInfo R →
    SendFuture R → Driven R
  | pendingItems, answers, info, fut =>
    match fut.poll (answers.headD ⟨none, none, none⟩) with
    | (written, .pending fut) =>
      ⟨{ info with state := .busy fut, pendingItems }, written, [], false, false⟩
    | (written, .ready (.ok false)) =>
      let info := { info with remainingChunks := info.remainingChunks - 1 }
      match pendingItems with
      | [] => ⟨{ info with state := .idle, pendingItems := [] }, written, [], true, false⟩
      | message :: pendingItems =>
        if deactivated then
          ⟨{ info with state := .idle, pendingItems := message :: pendingItems }, written, [], true,
            false⟩
        else
          let next := driveBusy deactivated pendingItems answers.tail info
            (.sending message (info.remainingChunks ≤ 1))
          { next with written := written ++ next.written, timer := true }
    | (written, .ready (.ok true)) =>
      ⟨{ info with state := .poisoned, pendingItems }, written, [], true, true⟩
    | (written, .ready (.error e)) =>
      ⟨{ info with state := .poisoned, pendingItems }, written, [e], true, true⟩

/-- The loop over one inbound substream. -/
def driveInbound (deactivated : Bool) (close : Poll (Except RPCError Unit))
    (answers : List SinkAnswer) (info : InboundInfo R) : Except HandlerPanic (Driven R) :=
  match info.state with
  | .idle =>
    if deactivated then
      match close with
      | none => .ok ⟨info, [], [], false, false⟩
      | some result =>
        let errors := match result with
          | .ok () => []
          | .error e => [e]
        .ok ⟨{ info with state := .poisoned }, [],
          errors ++ if leftOpen info.pendingItems then [.disconnected] else [], true, true⟩
    else
      match info.pendingItems with
      | [] => .ok ⟨info, [], [], false, false⟩
      | message :: pendingItems =>
        .ok (driveBusy deactivated pendingItems answers info
          (.sending message (info.remainingChunks ≤ 1)))
  | .busy fut => .ok (driveBusy deactivated info.pendingItems answers info fut)
  | .poisoned => .error .poisoned

/-- The timer of a substream that was driven: it has to be pending if it is used. -/
def Driven.timerOk (d : Driven R) (delay : List SubstreamId) : Bool :=
  match d.info.delayKey with
  | none => true
  | some key => !d.timer || delay.contains key

/-- The timers that are pending after a substream was driven. -/
def Driven.delay (d : Driven R) (delay : List SubstreamId) : List SubstreamId :=
  match d.info.delayKey with
  | none => delay
  | some key => if d.remove then delay.erase key else delay

/-- One round of the loop over the inbound substreams: the ids that are to be removed. -/
def driveInboundAt (env : PollEnv R) (id : SubstreamId) : HandlerM Id R (List SubstreamId) := do
  let c ← Action.get
  match c.inboundSubstreams.lookup id with
  | none => pure []
  | some info =>
    match driveInbound (c.state = .deactivated) (env.close id) (env.sink id) info with
    | .error reason => panic reason
    | .ok d =>
      if d.timerOk c.inboundSubstreamsDelay then
        Action.modify fun c =>
          { c with
            inboundSubstreams := c.inboundSubstreams.insert id d.info
            inboundSubstreamsDelay := d.delay c.inboundSubstreamsDelay
            written := c.written ++ d.written.map fun message => (id, message)
            eventsOut := c.eventsOut ++
              d.errors.map fun error => .error (.inbound id info.protocol error) }
        return if d.remove then [id] else []
      else
        panic .timer

def driveAllInbound (env : PollEnv R) : List SubstreamId → HandlerM Id R (List SubstreamId)
  | [] => pure []
  | id :: ids => do
    let removed ← driveInboundAt env id
    return removed ++ (← driveAllInbound env ids)

def removeInbound (id : SubstreamId) : HandlerM Id R Unit :=
  Action.modify fun c => { c with inboundSubstreams := c.inboundSubstreams.erase id }

/-! ### Outbound substreams -/

/-- `self.outbound_substreams_delay.reset`. -/
def resetOutboundTimer (key : SubstreamId) : HandlerM Id R Unit := do
  let c ← Action.get
  if key ∈ c.outboundSubstreamsDelay then pure () else panic .timer

/-- An outbound substream that ended, with its timer. -/
def removeOutbound (id key : SubstreamId) : HandlerM Id R Unit := do
  let c ← Action.get
  if key ∈ c.outboundSubstreamsDelay then
    Action.modify fun c =>
      { c with
        outboundSubstreamsDelay := c.outboundSubstreamsDelay.erase key
        outboundSubstreams := c.outboundSubstreams.erase id }
  else
    panic .timer

def setOutbound (id : SubstreamId) (info : OutboundInfo Id) : HandlerM Id R Unit :=
  Action.modify fun c => { c with outboundSubstreams := c.outboundSubstreams.insert id info }

/-- The event for a response. -/
def received (id : Id) (proto : Protocol) : RPCCodedResponse R → HandlerEvent Id R
  | .success response => .ok (.response id response)
  | .error code reason => .error (.outbound id proto (.errorResponse code reason))
  | .streamTermination termination => .ok (.endOfStream id termination)

/-- A response on an outbound substream. -/
def onResponse (id : SubstreamId) (info : OutboundInfo Id) (request : RPCRequest)
    (response : RPCCodedResponse R) : HandlerM Id R Unit := do
  if 1 < request.expectedResponses ∧ response.closeAfter = false then
    let remainingChunks := (info.remainingChunks.map (· - 1)).getD 0
    if remainingChunks = 0 then
      setOutbound id { info with state := .closing }
    else
      setOutbound id { info with remainingChunks := some remainingChunks }
      resetOutboundTimer info.delayKey
  else
    setOutbound id { info with state := .closing }
  ready (.notifyBehaviour (received info.reqId info.proto response))

/-- The end of an outbound substream, as the peer closed it. -/
def onStreamClosed (id : SubstreamId) (info : OutboundInfo Id) (request : RPCRequest) :
    HandlerM Id R Unit := do
  removeOutbound id info.delayKey
  if 1 < request.expectedResponses then
    match streamTermination request with
    | some termination => ready (.notifyBehaviour (.ok (.endOfStream info.reqId termination)))
    | none => panic .unreachable
  else
    ready (.notifyBehaviour (.error (.outbound info.reqId request.protocol .incompleteStream)))

/-- One round of the loop over the outbound substreams. -/
def driveOutbound (env : PollEnv R) (id : SubstreamId) : HandlerM Id R Unit := do
  let c ← Action.get
  match c.outboundSubstreams.lookup id with
  | none => panic .unreachable
  | some info =>
    match info.state with
    | .requestPendingResponse request =>
      if c.state = .deactivated then
        Action.modify fun c =>
          { c with
            outboundSubstreams := c.outboundSubstreams.insert id { info with state := .closing }
            eventsOut := c.eventsOut ++
              [.error (.outbound info.reqId info.proto .disconnected)] }
      else
        match env.stream id with
        | none => pure ()
        | some none => onStreamClosed id info request
        | some (some (.ok response)) => onResponse id info request response
        | some (some (.error e)) =>
          removeOutbound id info.delayKey
          ready (.notifyBehaviour (.error (.outbound info.reqId info.proto e)))
    | .closing =>
      if env.closed id then
        removeOutbound id info.delayKey
        if info.proto = .blocksByRange then
          ready (.notifyBehaviour (.ok (.endOfStream info.reqId .blocksByRange)))
    | .poisoned => panic .poisoned

/-! ### The end of a poll -/

def establishOutbound : HandlerM Id R Unit := do
  let c ← Action.get
  match c.dialQueue with
  | [] => pure ()
  | (id, req) :: dialQueue =>
    if c.dialNegotiated < c.maxDialNegotiated then
      Action.modify fun c =>
        { c with
          dialNegotiated := c.dialNegotiated + 1
          dialQueue
          negotiating := c.negotiating ++ [(id, req)] }
      ready (.outboundSubstreamRequest id req)

/-- Whether nothing is left to do before the connection may be closed. -/
def Connection.drained (c : Connection Id R) : Bool :=
  c.dialQueue.isEmpty && c.outboundSubstreams.keys.card == 0 &&
    c.inboundSubstreams.keys.card == 0 && c.eventsOut.isEmpty && c.dialNegotiated == 0

def completeShutdown : HandlerM Id R Unit := do
  let c ← Action.get
  if c.state = .shuttingDown ∧ c.drained then
    ready (.close .disconnected)

/-- `RPCHandler::poll`. It ends without an exit if it is `Pending`. -/
def poll (env : PollEnv R) : HandlerM Id R Unit := do
  pollEventsOut
  pollShutdown env
  pollTimer env.inboundTimer expireInbound "Could not poll inbound stream timer".toList
  pollTimer env.outboundTimer expireOutbound "Could not poll outbound stream timer".toList
  let substreamsToRemove ← driveAllInbound env env.inboundOrder
  Action.forEach substreamsToRemove removeInbound
  Action.forEach env.outboundOrder (driveOutbound env)
  establishOutbound
  completeShutdown

end

end Alys.Rpc
