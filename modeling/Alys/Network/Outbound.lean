import Alys.Network.Connection
import Mathlib.Data.Multiset.AddSub
import Mathlib.Tactic.Abel

/-!
# Requests of a connection

What becomes of the requests that are given to a connection. A request awaits its responses in the
queue of dials, in a negotiation or on a substream, and at one of these places at a time. What is
reported about a request names one that was given to the connection, and after the end of its stream
no response follows.
-/

namespace Alys.Rpc
open Lib Lib.Action

section

variable {Id R : Type}

/-! ## Events -/

/-- The event is about one of the requests, or about none. -/
def Names (ids : Multiset Id) : HandlerEvent Id R → Prop
  | .ok (.request ..) => True
  | .ok (.response id _) => id ∈ ids
  | .ok (.endOfStream id _) => id ∈ ids
  | .error (.inbound ..) => True
  | .error (.outbound id ..) => id ∈ ids

/-- An event that is put into the queue of events. Responses and ends of streams are returned at
once. -/
def Queues (ids : Multiset Id) : HandlerEvent Id R → Prop
  | .ok (.request ..) => True
  | .ok (.response ..) => False
  | .ok (.endOfStream ..) => False
  | .error (.inbound ..) => True
  | .error (.outbound id ..) => id ∈ ids

def ConnectionHandlerEvent.notified? : ConnectionHandlerEvent Id R → Option (HandlerEvent Id R)
  | .notifyBehaviour event => some event
  | .close _ => none
  | .outboundSubstreamRequest .. => none

/-- The events that were returned for the behaviour. -/
def Connection.notified (c : Connection Id R) : List (HandlerEvent Id R) :=
  c.returned.filterMap (·.notified?)

/-- The end of the stream of a request was reported. -/
def Ended (events : List (HandlerEvent Id R)) (id : Id) : Prop :=
  ∃ termination, .ok (.endOfStream id termination) ∈ events

/-- A response after the end of its stream. -/
def Late (before after : HandlerEvent Id R) : Prop :=
  ∃ id termination response,
    before = .ok (.endOfStream id termination) ∧ after = .ok (.response id response)

variable {ids ids' : Multiset Id} {event : HandlerEvent Id R} {c c' : Connection Id R}

lemma Queues.mono (h : Queues ids event) (sub : ids ⊆ ids') : Queues ids' event := by
  cases event with
  | ok received =>
    cases received with
    | request => exact h
    | response => exact h
    | endOfStream => exact h
  | error err =>
    cases err with
    | inbound => exact h
    | outbound => exact sub h

lemma Names.mono (h : Names ids event) (sub : ids ⊆ ids') : Names ids' event := by
  cases event with
  | ok received =>
    cases received with
    | request => exact h
    | response => exact sub h
    | endOfStream => exact sub h
  | error err =>
    cases err with
    | inbound => exact h
    | outbound => exact sub h

lemma Queues.names (h : Queues ids event) : Names ids event := by
  cases event with
  | ok received =>
    cases received with
    | request => exact h
    | response => exact h.elim
    | endOfStream => exact h.elim
  | error err =>
    cases err with
    | inbound => exact h
    | outbound => exact h

/-! ## The account -/

/-- The request of a substream on which responses are awaited. -/
def OutboundInfo.awaiting (info : OutboundInfo Id) : Multiset Id :=
  match info.state with
  | .requestPendingResponse _ => {info.reqId}
  | .closing => 0
  | .poisoned => 0

/-- The requests whose responses are awaited. -/
def awaitingIds (dialQueue negotiating : List (Id × RPCRequest))
    (m : Map SubstreamId (OutboundInfo Id)) : Multiset Id :=
  ↑(dialQueue.map (·.1)) + ↑(negotiating.map (·.1)) + sumOver (fun _ info => info.awaiting) m

def Connection.awaiting (c : Connection Id R) : Multiset Id :=
  awaitingIds c.dialQueue c.negotiating c.outboundSubstreams

/-- The invariant of a connection that was given some requests and has returned the events `earlier`
before. -/
structure Connection.Accounted (earlier : List (HandlerEvent Id R)) (given : List Id)
    (c : Connection Id R) : Prop where
  submitted : c.submitted = given
  nodup : c.submitted.Nodup
  awaiting : c.awaiting ≤ c.submitted
  settled : ∀ id info, c.outboundSubstreams.lookup id = some info → info.awaiting = 0 →
    info.reqId ∈ c.submitted ∧ info.reqId ∉ c.awaiting
  queued : ∀ event ∈ c.eventsOut, Queues c.submitted event
  named : ∀ event ∈ c.notified, Names c.submitted event
  ended : ∀ id, Ended c.notified id → id ∉ c.awaiting
  order : c.notified.Pairwise fun before after => ¬ Late before after
  earlier : earlier <+: c.notified

lemma Connection.Accounted.new : (Connection.new : Connection Id R).Accounted [] [] where
  submitted := rfl
  nodup := List.nodup_nil
  awaiting := le_refl _
  settled id info hlookup := by cases hlookup
  queued event mem := absurd mem List.not_mem_nil
  named event mem := absurd mem List.not_mem_nil
  ended id h := absurd h.choose_spec List.not_mem_nil
  order := .nil
  earlier := List.nil_prefix

/-- What a call does that returns no event, with the requests that it is given. -/
structure Connection.Step (fresh : List Id) (c c' : Connection Id R) : Prop where
  submitted : c'.submitted = c.submitted ++ fresh
  returned : c'.returned = c.returned
  awaiting : c'.awaiting ≤ c.awaiting + fresh
  settled : ∀ id info, c'.outboundSubstreams.lookup id = some info → info.awaiting = 0 →
    c.outboundSubstreams.lookup id = some info
  queued : ∀ event ∈ c'.eventsOut, event ∈ c.eventsOut ∨
    Queues (c.awaiting + (fresh : Multiset Id)) event

namespace Connection

variable {earlier : List (HandlerEvent Id R)} {given : List Id} {fresh fresh' : List Id}

/-- One step after the other. -/
lemma Step.trans {c'' : Connection Id R} (h : c.Step fresh c') (h' : c'.Step fresh' c'') :
    c.Step (fresh ++ fresh') c'' := by
  have hle : c'.awaiting + fresh' ≤ c.awaiting + ↑(fresh ++ fresh') := by
    rw [← Multiset.coe_add, ← add_assoc]
    exact add_le_add_left h.awaiting _
  have hle' : c.awaiting + fresh ≤ c.awaiting + ↑(fresh ++ fresh') := by
    rw [← Multiset.coe_add, ← add_assoc]
    exact Multiset.le_add_right _ _
  refine ⟨?_, h'.returned.trans h.returned, h'.awaiting.trans hle, ?_, fun event mem => ?_⟩
  · rw [h'.submitted, h.submitted, List.append_assoc]
  · exact fun id info hlookup hinfo => h.settled id info (h'.settled id info hlookup hinfo) hinfo
  · rcases h'.queued event mem with mem | hqueues
    · rcases h.queued event mem with mem | hqueues
      · exact .inl mem
      · exact .inr (hqueues.mono (Multiset.subset_of_le hle'))
    · exact .inr (hqueues.mono (Multiset.subset_of_le hle))

/-- A step that returns nothing keeps the account. -/
lemma Accounted.step (h : c.Accounted earlier given) (step : c.Step fresh c')
    (nodup : (given ++ fresh).Nodup) : c'.Accounted earlier (given ++ fresh) := by
  rw [← h.submitted] at nodup ⊢
  have hnotified : c'.notified = c.notified := by rw [notified, step.returned, notified]
  have hsub : (c.submitted : Multiset Id) ⊆ ↑(c.submitted ++ fresh) :=
    fun _ mem => List.mem_append_left _ mem
  have hle : c.awaiting + fresh ≤ ↑(c.submitted ++ fresh) := by
    rw [← Multiset.coe_add]
    exact add_le_add_left h.awaiting _
  -- what was given to the connection before is not one of the new requests
  have hawaiting : ∀ id ∈ c.submitted, id ∉ c.awaiting → id ∉ c'.awaiting := by
    intro id mem hid mem'
    rcases Multiset.mem_add.mp (Multiset.mem_of_le step.awaiting mem') with mem' | mem'
    · exact hid mem'
    · exact (List.disjoint_of_nodup_append nodup) mem mem'
  refine ⟨step.submitted, ?_, ?_, ?_, ?_, ?_, ?_, ?_, ?_⟩
  · rw [step.submitted]
    exact nodup
  · rw [step.submitted]
    exact step.awaiting.trans hle
  · intro id info hlookup hinfo
    obtain ⟨mem, hid⟩ := h.settled id info (step.settled id info hlookup hinfo) hinfo
    rw [step.submitted]
    exact ⟨List.mem_append_left _ mem, hawaiting _ mem hid⟩
  · intro event mem
    rw [step.submitted]
    rcases step.queued event mem with mem | hqueues
    · exact (h.queued event mem).mono hsub
    · exact hqueues.mono (Multiset.subset_of_le hle)
  · rw [hnotified, step.submitted]
    exact fun event mem => (h.named event mem).mono hsub
  · rw [hnotified]
    rintro id ⟨termination, mem⟩
    exact hawaiting id (h.named _ mem) (h.ended id ⟨termination, mem⟩)
  · rw [hnotified]
    exact h.order
  · rw [hnotified]
    exact h.earlier

/-- A step that is given no request. -/
lemma Accounted.internal (h : c.Accounted earlier given) (step : c.Step [] c') :
    c'.Accounted earlier given := by
  have hnodup := h.nodup
  rw [h.submitted, ← List.append_nil given] at hnodup
  have hstep := h.step step hnodup
  rwa [List.append_nil] at hstep

/-- An event is returned. A response is not about a request that ended, and the end of a stream is
not about one that is awaited. -/
lemma Accounted.returns (h : c.Accounted earlier given) (named : Names c.submitted event)
    (response : ∀ id response, event = .ok (.response id response) → ¬ Ended c.notified id)
    (ended : ∀ id termination, event = .ok (.endOfStream id termination) → id ∉ c.awaiting) :
    Accounted earlier given { c with returned := c.returned ++ [.notifyBehaviour event] } := by
  have hnotified : notified { c with returned := c.returned ++ [.notifyBehaviour event] } =
      c.notified ++ [event] := by
    simp [notified, ConnectionHandlerEvent.notified?]
  refine { h with named := ?_, ended := ?_, order := ?_, earlier := ?_ }
  · rw [hnotified]
    intro event' mem
    rcases List.mem_append.mp mem with mem | mem
    · exact h.named event' mem
    · rw [List.mem_singleton.mp mem]
      exact named
  · rw [hnotified]
    rintro id ⟨termination, mem⟩
    rcases List.mem_append.mp mem with mem | mem
    · exact h.ended id ⟨termination, mem⟩
    · exact ended id termination (List.mem_singleton.mp mem).symm
  · rw [hnotified, List.pairwise_append]
    refine ⟨h.order, List.pairwise_singleton _ _, ?_⟩
    rintro before mem after mem' ⟨id, termination, message, rfl, e⟩
    rw [List.mem_singleton.mp mem'] at e
    exact response id message e ⟨termination, mem⟩
  · rw [hnotified]
    exact h.earlier.trans (List.prefix_append _ _)

lemma Accounted.returns_queued (h : c.Accounted earlier given) (queues : Queues c.submitted event) :
    Accounted earlier given { c with returned := c.returned ++ [.notifyBehaviour event] } := by
  refine h.returns queues.names ?_ ?_
  · rintro id response rfl
    exact queues.elim
  · rintro id termination rfl
    exact queues.elim

/-- What is not for the behaviour does not matter. -/
lemma Accounted.returns_other {event : ConnectionHandlerEvent Id R} (h : c.Accounted earlier given)
    (other : event.notified? = none) :
    Accounted earlier given { c with returned := c.returned ++ [event] } := by
  have hnotified : notified { c with returned := c.returned ++ [event] } = c.notified := by
    simp [notified, other]
  refine { h with named := ?_, ended := ?_, order := ?_, earlier := ?_ }
  · rw [hnotified]
    exact h.named
  · rw [hnotified]
    exact h.ended
  · rw [hnotified]
    exact h.order
  · rw [hnotified]
    exact h.earlier

end Connection

/-! ### Substreams -/

section

variable {dialQueue negotiating : List (Id × RPCRequest)} {m : Map SubstreamId (OutboundInfo Id)}
  {id : SubstreamId} {info : OutboundInfo Id} {earlier : List (HandlerEvent Id R)} {given : List Id}

lemma awaitingIds_insert :
    awaitingIds dialQueue negotiating (m.insert id info) =
      info.awaiting + awaitingIds dialQueue negotiating (m.erase id) := by
  rw [awaitingIds, sumOver_insert, awaitingIds, add_left_comm]

lemma awaitingIds_of_lookup (hlookup : m.lookup id = some info) :
    awaitingIds dialQueue negotiating m =
      info.awaiting + awaitingIds dialQueue negotiating (m.erase id) := by
  rw [awaitingIds, sumOver_of_lookup hlookup, awaitingIds, add_left_comm]

lemma awaitingIds_erase_le :
    awaitingIds dialQueue negotiating (m.erase id) ≤ awaitingIds dialQueue negotiating m := by
  cases hlookup : m.lookup id with
  | none => rw [erase_of_lookup hlookup]
  | some info =>
    rw [awaitingIds_of_lookup hlookup]
    exact Multiset.le_add_left _ _

lemma OutboundInfo.awaiting_cases : info.awaiting = {info.reqId} ∨ info.awaiting = 0 := by
  unfold awaiting
  split
  · exact .inl rfl
  · exact .inr rfl
  · exact .inr rfl

section

variable (h : c.Accounted earlier given)
  (hlookup : c.outboundSubstreams.lookup id = some info)

include h hlookup

/-- The request of a substream is known, and awaited at no other place. -/
lemma Connection.Accounted.reqId_settled :
    info.reqId ∈ c.submitted ∧
      info.reqId ∉ awaitingIds c.dialQueue c.negotiating (c.outboundSubstreams.erase id) := by
  have hawaiting : c.awaiting = _ := awaitingIds_of_lookup hlookup
  rcases info.awaiting_cases with hinfo | hinfo
  · have hle := h.awaiting
    rw [hawaiting, hinfo, Multiset.singleton_add] at hle
    exact ⟨Multiset.mem_of_le hle (Multiset.mem_cons_self _ _),
      (Multiset.nodup_cons.mp (Multiset.nodup_of_le hle h.nodup)).1⟩
  · have hsettled := h.settled id info hlookup hinfo
    rwa [hawaiting, hinfo, zero_add] at hsettled

/-- Responses are awaited for no request that ended. -/
lemma Connection.Accounted.not_ended (hinfo : info.awaiting = {info.reqId}) :
    ¬ Ended c.notified info.reqId := by
  intro hended
  refine h.ended _ hended ?_
  rw [Connection.awaiting, awaitingIds_of_lookup hlookup, hinfo]
  exact Multiset.mem_add.mpr (.inl (Multiset.mem_singleton_self _))

/-- A substream on which responses are awaited further. -/
lemma Connection.Accounted.keep (info' : OutboundInfo Id) (hinfo : info.awaiting = {info.reqId})
    (hinfo' : info'.awaiting = info.awaiting) :
    Accounted earlier given
      { c with outboundSubstreams := c.outboundSubstreams.insert id info' } := by
  have hawaiting : awaitingIds c.dialQueue c.negotiating (c.outboundSubstreams.insert id info') =
      c.awaiting := by
    rw [awaitingIds_insert, hinfo', Connection.awaiting, awaitingIds_of_lookup hlookup]
  refine h.internal ⟨(List.append_nil _).symm, rfl, ?_, fun id' info'' hlookup' hsettled => ?_,
    fun _ mem => .inl mem⟩
  · rw [Multiset.coe_nil, add_zero]
    exact le_of_eq hawaiting
  · rcases lookup_insert_eq_some.mp hlookup' with ⟨_, rfl⟩ | ⟨_, hlookup'⟩
    · rw [hinfo', hinfo] at hsettled
      exact absurd hsettled (Multiset.singleton_ne_zero _)
    · exact hlookup'

/-- A substream is removed or left to be closed, so that its request is awaited no longer. -/
lemma Connection.Accounted.finish (hawaiting : awaitingIds c.dialQueue c.negotiating m =
      awaitingIds c.dialQueue c.negotiating (c.outboundSubstreams.erase id))
    (hm : ∀ id' info', m.lookup id' = some info' →
      c.outboundSubstreams.lookup id' = some info' ∨ info'.reqId = info.reqId) :
    Accounted earlier given { c with outboundSubstreams := m } ∧
      info.reqId ∉ Connection.awaiting { c with outboundSubstreams := m } := by
  obtain ⟨hmem, hnotMem⟩ := h.reqId_settled hlookup
  have hle : awaitingIds c.dialQueue c.negotiating m ≤ c.awaiting := by
    rw [hawaiting, Connection.awaiting, awaitingIds_of_lookup hlookup]
    exact Multiset.le_add_left _ _
  rw [← hawaiting] at hnotMem
  refine ⟨{ h with awaiting := hle.trans h.awaiting, settled := ?_, ended := ?_ }, hnotMem⟩
  · intro id' info' hlookup' hinfo'
    rcases hm id' info' hlookup' with hold | e
    · obtain ⟨hmem', hnotMem'⟩ := h.settled id' info' hold hinfo'
      exact ⟨hmem', fun mem => hnotMem' (Multiset.mem_of_le hle mem)⟩
    · rw [e]
      exact ⟨hmem, hnotMem⟩
  · exact fun id' hended mem => h.ended id' hended (Multiset.mem_of_le hle mem)

lemma Connection.Accounted.remove :
    Accounted earlier given { c with outboundSubstreams := c.outboundSubstreams.erase id } ∧
      info.reqId ∉
        Connection.awaiting { c with outboundSubstreams := c.outboundSubstreams.erase id } := by
  refine h.finish hlookup rfl fun id' info' hlookup' => ?_
  exact .inl (lookup_erase_eq_some.mp hlookup').2

lemma Connection.Accounted.close (info' : OutboundInfo Id) (hinfo : info'.awaiting = 0)
    (hreqId : info'.reqId = info.reqId) :
    Accounted earlier given { c with outboundSubstreams := c.outboundSubstreams.insert id info' } ∧
      info.reqId ∉
        Connection.awaiting
          { c with outboundSubstreams := c.outboundSubstreams.insert id info' } := by
  refine h.finish hlookup ?_ fun id' info'' hlookup' => ?_
  · rw [awaitingIds_insert, hinfo, zero_add]
  · rcases lookup_insert_eq_some.mp hlookup' with ⟨_, rfl⟩ | ⟨_, hlookup'⟩
    · exact .inr hreqId
    · exact .inl hlookup'

end

end

/-! ## Calls -/

namespace Connection

/-- A call that changes nothing of the requests. -/
lemma Step.of_events {events : List (HandlerEvent Id R)} (submitted : c'.submitted = c.submitted)
    (returned : c'.returned = c.returned) (dialQueue : c'.dialQueue = c.dialQueue)
    (negotiating : c'.negotiating = c.negotiating)
    (substreams : c'.outboundSubstreams = c.outboundSubstreams)
    (eventsOut : c'.eventsOut = c.eventsOut ++ events) (queues : ∀ event ∈ events, Queues 0 event) :
    c.Step [] c' := by
  refine ⟨?_, returned, ?_, ?_, fun event mem => ?_⟩
  · rw [submitted, List.append_nil]
  · rw [Connection.awaiting, dialQueue, negotiating, substreams]
    exact Multiset.le_add_right _ _
  · rw [substreams]
    exact fun _ _ hlookup _ => hlookup
  · rw [eventsOut] at mem
    rcases List.mem_append.mp mem with mem | mem
    · exact .inl mem
    · exact .inr ((queues event mem).mono (Multiset.zero_subset _))

lemma Step.refl : c.Step [] c :=
  .of_events rfl rfl rfl rfl rfl (List.append_nil _).symm fun _ mem => absurd mem List.not_mem_nil

end Connection

section

variable {id : Id} {req : RPCRequest}

/-- The goodbye is a new request. -/
lemma shutdown_step (goodbyeReason : Option (Id × Nat)) :
    c.Step (goodbyeReason.map (·.1)).toList (shutdown goodbyeReason
      { c with submitted := c.submitted ++ (goodbyeReason.map (·.1)).toList }) := by
  unfold shutdown
  split
  case isTrue =>
    refine ⟨rfl, rfl, ?_, fun _ _ hlookup _ => hlookup, fun event mem => ?_⟩
    · have hmap : (goodbyeReason.map fun p => (p.1, RPCRequest.goodbye p.2)).toList.map (·.1) =
          (goodbyeReason.map (·.1)).toList := by
        cases goodbyeReason <;> rfl
      simp only [Connection.awaiting, awaitingIds, hmap]
      rw [add_assoc, add_comm]
      refine add_le_add_left ?_ _
      rw [add_assoc]
      exact Multiset.le_add_left _ _
    · rcases List.mem_append.mp mem with mem | mem
      · exact .inl mem
      · obtain ⟨p, hp, rfl⟩ := List.mem_map.mp mem
        refine .inr (Multiset.mem_add.mpr (.inl ?_))
        rw [Connection.awaiting, awaitingIds, add_assoc]
        exact Multiset.mem_add.mpr (.inl (List.mem_map_of_mem (List.mem_reverse.mp hp)))
  case isFalse =>
    exact ⟨rfl, rfl, Multiset.le_add_right _ _, fun _ _ hlookup _ => hlookup,
      fun _ mem => .inl mem⟩

lemma shutdown_none_step : c.Step [] (shutdown none c) := by
  have h : c.Step [] (shutdown none { c with submitted := c.submitted ++ [] }) := shutdown_step none
  rwa [List.append_nil] at h

lemma sendResponse_step {inboundId : SubstreamId} {response : RPCCodedResponse R} :
    c.Step [] (sendResponse inboundId response c) := by
  unfold sendResponse
  split
  case h_1 => exact .refl
  case h_2 info _ =>
    have hqueues : ∀ event ∈ (reportError inboundId info.protocol response :
        List (HandlerEvent Id R)), Queues 0 event := by
      intro event mem
      cases response with
      | success => cases mem
      | error =>
        rw [List.mem_singleton.mp mem]
        trivial
      | streamTermination => cases mem
    dsimp only
    split
    · exact .of_events rfl rfl rfl rfl rfl rfl hqueues
    · exact .of_events rfl rfl rfl rfl rfl rfl hqueues

/-- The outbound side does not change. -/
lemma onFullyNegotiatedInbound_step : c.Step [] (onFullyNegotiatedInbound req c) := by
  unfold onFullyNegotiatedInbound
  split
  case isFalse => exact .refl
  case isTrue =>
    dsimp only
    split
    case isTrue =>
      have reject : c.Step []
          { c with
            eventsOut := c.eventsOut ++
              [.error (.inbound c.currentInboundSubstreamId req.protocol .handlerRejected)] } := by
        refine .of_events rfl rfl rfl rfl rfl rfl fun event mem => ?_
        rw [List.mem_singleton.mp mem]
        trivial
      exact reject.trans shutdown_none_step
    case isFalse =>
      -- the substream that may be kept, the shutdown after a goodbye, and the report
      set kept := if 0 < req.expectedResponses then _ else c with hkept
      have keep : c.Step [] kept := by
        rw [hkept]
        split
        · exact .of_events rfl rfl rfl rfl rfl (List.append_nil _).symm
            fun _ mem => absurd mem List.not_mem_nil
        · exact .refl
      have goodbye :
          kept.Step [] (if req.protocol = .goodbye then shutdown none kept else kept) := by
        split
        · exact shutdown_none_step
        · exact .refl
      refine (keep.trans goodbye).trans (.of_events rfl rfl rfl rfl rfl rfl ?_)
      intro event mem
      rw [List.mem_singleton.mp mem]
      trivial

/-- The call holds a request that it was given or took from where it was awaited. -/
structure Connection.Holds (fresh : List Id) (id : Id) (c c' : Connection Id R) : Prop where
  submitted : c'.submitted = c.submitted ++ fresh
  returned : c'.returned = c.returned
  awaiting : c'.awaiting + {id} ≤ c.awaiting + fresh
  substreams : c'.outboundSubstreams = c.outboundSubstreams
  eventsOut : c'.eventsOut = c.eventsOut

namespace Connection.Holds

variable {fresh : List Id}

lemma mem (h : c.Holds fresh id c') : id ∈ c.awaiting + (fresh : Multiset Id) :=
  Multiset.mem_of_le h.awaiting (Multiset.mem_add.mpr (.inr (Multiset.mem_singleton_self id)))

/-- The request is dropped. -/
lemma drop (h : c.Holds fresh id c') : c.Step fresh c' := by
  refine ⟨h.submitted, h.returned, (Multiset.le_add_right _ _).trans h.awaiting, ?_, ?_⟩
  · rw [h.substreams]
    exact fun _ _ hlookup _ => hlookup
  · rw [h.eventsOut]
    exact fun _ mem => .inl mem

/-- The request failed. -/
lemma fail (h : c.Holds fresh id c') {proto : Protocol} {error : RPCError} :
    c.Step fresh { c' with eventsOut := c'.eventsOut ++ [.error (.outbound id proto error)] } := by
  refine { h.drop with queued := fun event mem => ?_ }
  rcases List.mem_append.mp mem with mem | mem
  · exact h.drop.queued event mem
  · rw [List.mem_singleton.mp mem]
    exact .inr h.mem

lemma sendRequest (h : c.Holds fresh id c') : c.Step fresh (sendRequest id req c') := by
  unfold Rpc.sendRequest
  split
  case isTrue =>
    refine { h.drop with awaiting := ?_ }
    have hawaiting : Connection.awaiting { c' with dialQueue := c'.dialQueue ++ [(id, req)] } =
        c'.awaiting + {id} := by
      simp only [Connection.awaiting, awaitingIds, List.map_append, ← Multiset.coe_add,
        List.map_cons, List.map_nil, Multiset.coe_singleton]
      abel
    rw [hawaiting]
    exact h.awaiting
  case isFalse => exact h.fail

/-- The request is awaited on a new substream. -/
lemma store (step : c.Step fresh c') (awaiting : c'.awaiting + {id} ≤ c.awaiting + fresh) :
    c.Step fresh (storeOutbound id req c') := by
  unfold storeOutbound
  split
  case isFalse => exact step
  case isTrue =>
    refine { step with awaiting := ?_, settled := fun id' info' hlookup' hinfo' => ?_ }
    · refine le_trans ?_ awaiting
      rw [Connection.awaiting, awaitingIds_insert, add_comm]
      exact add_le_add_left awaitingIds_erase_le _
    · rcases lookup_insert_eq_some.mp hlookup' with ⟨_, rfl⟩ | ⟨_, hlookup'⟩
      · exact absurd hinfo' (Multiset.singleton_ne_zero id)
      · exact step.settled id' info' hlookup' hinfo'

lemma negotiated (h : c.Holds fresh id c') :
    c.Step fresh (storeOutbound id req (reportDeactivated id req c')) := by
  unfold reportDeactivated
  split
  · exact store h.fail h.awaiting
  · exact store h.drop h.awaiting

/-- A request that is given to the connection. -/
lemma submit : c.Holds [id] id { c with submitted := c.submitted ++ [id] } :=
  ⟨rfl, rfl, le_refl _, rfl, rfl⟩

/-- A request whose negotiation is over. -/
lemma negotiation [DecidableEq Id] (mem : (id, req) ∈ c.negotiating) :
    c.Holds [] id { c with negotiating := c.negotiating.erase (id, req) } := by
  refine ⟨(List.append_nil _).symm, rfl, ?_, rfl, rfl⟩
  have hperm : (c.negotiating.map (·.1)).Perm (id :: (c.negotiating.erase (id, req)).map (·.1)) :=
    (List.perm_cons_erase mem).map (·.1)
  simp only [Connection.awaiting, awaitingIds]
  rw [Multiset.coe_eq_coe.mpr hperm, ← Multiset.cons_coe, ← Multiset.singleton_add]
  refine le_of_eq ?_
  rw [Multiset.coe_nil]
  abel

end Connection.Holds

variable {earlier : List (HandlerEvent Id R)} {given : List Id} [DecidableEq Id]

lemma onFullyNegotiatedOutbound_accounted (h : c.Accounted earlier given)
    (mem : (id, req) ∈ c.negotiating) :
    wp (onFullyNegotiatedOutbound id req) (fun _ => Connection.Accounted earlier given)
      (Connection.Accounted earlier given) c := by
  have holds := Connection.Holds.negotiation mem
  unfold onFullyNegotiatedOutbound releaseDial
  rw [wp_bind, wp_modify, wp_bind, wp_bind, wp_get]
  split
  case isTrue =>
    rw [wp_panic]
    exact h.internal { holds.drop with }
  case isFalse =>
    rw [wp_modify, wp_bind, wp_modify, wp_bind, wp_modify, wp_modify]
    exact h.internal (Connection.Holds.negotiated { holds with })

/-- A failed dial: the request is sent again or reported. -/
lemma onDialUpgradeError_accounted {error : StreamUpgradeError} (h : c.Accounted earlier given)
    (mem : (id, req) ∈ c.negotiating) :
    wp (onDialUpgradeError id req error) (fun _ => Connection.Accounted earlier given)
      (Connection.Accounted earlier given) c := by
  have holds := Connection.Holds.negotiation mem
  unfold onDialUpgradeError releaseDial
  rw [wp_bind, wp_modify, wp_bind, wp_get]
  split
  case isTrue =>
    rw [wp_modify]
    exact h.internal (Connection.Holds.sendRequest { holds with })
  case isFalse =>
    rw [wp_bind, wp_bind, wp_get]
    split
    case isTrue =>
      rw [wp_panic]
      exact h.internal { holds.drop with }
    case isFalse =>
      rw [wp_modify, wp_modify]
      exact h.internal { holds.fail with }

end

/-! ## Polls -/

section

variable {earlier : List (HandlerEvent Id R)} {given : List Id} {env : PollEnv R} {id : SubstreamId}

lemma pollEventsOut_accounted :
    Keeps (Connection.Accounted earlier given) (pollEventsOut : HandlerM Id R Unit) := by
  rw [keeps_iff]
  intro c h
  unfold pollEventsOut
  rw [wp_bind, wp_get]
  split
  case h_1 => exact h
  case h_2 event eventsOut e =>
    have hqueued := h.queued
    rw [e, List.forall_mem_cons] at hqueued
    rw [wp_bind, wp_modify, wp_ready]
    exact Connection.Accounted.returns_queued { h with queued := hqueued.2 } hqueued.1

lemma pollShutdown_accounted :
    Keeps (Connection.Accounted earlier given) (pollShutdown env : HandlerM Id R Unit) := by
  rw [keeps_iff]
  intro c h
  unfold pollShutdown
  rw [wp_bind, wp_get]
  split
  case isTrue =>
    rw [wp_bind, wp_modify, wp_ready]
    exact Connection.Accounted.returns_other { h with } rfl
  case isFalse => exact h

lemma expireInbound_accounted :
    Keeps (Connection.Accounted earlier given) (expireInbound id : HandlerM Id R Unit) := by
  rw [keeps_iff]
  intro c h
  unfold expireInbound
  rw [wp_bind, wp_get]
  split
  case isFalse => exact h
  case isTrue =>
    rw [wp_bind, wp_modify]
    split
    case h_1 => exact { h with }
    case h_2 info _ =>
      rw [wp_modify]
      refine h.internal (.of_events rfl rfl rfl rfl rfl rfl fun event mem => ?_)
      rw [List.mem_singleton.mp mem]
      trivial

lemma expireOutbound_accounted :
    Keeps (Connection.Accounted earlier given) (expireOutbound id : HandlerM Id R Unit) := by
  rw [keeps_iff]
  intro c h
  unfold expireOutbound
  rw [wp_bind, wp_get]
  split
  case isFalse => exact h
  case isTrue =>
    rw [wp_bind, wp_modify]
    split
    case h_1 => exact { h with }
    case h_2 info hlookup =>
      rw [wp_bind, wp_modify, wp_ready]
      have hremoved := (h.remove hlookup).1
      exact Connection.Accounted.returns_queued { hremoved with } (h.reqId_settled hlookup).1

lemma driveInboundAt_accounted :
    Keeps (Connection.Accounted earlier given)
      (driveInboundAt env id : HandlerM Id R (List SubstreamId)) := by
  rw [keeps_iff]
  intro c h
  unfold driveInboundAt
  rw [wp_bind, wp_get]
  split
  case h_1 => exact h
  case h_2 info _ =>
    split
    case h_1 => exact { h with }
    case h_2 d _ =>
      split
      case isTrue =>
        rw [wp_bind, wp_modify, wp_pure]
        refine h.internal (.of_events rfl rfl rfl rfl rfl rfl fun event mem => ?_)
        obtain ⟨error, _, rfl⟩ := List.mem_map.mp mem
        trivial
      case isFalse => exact { h with }

lemma removeInbound_accounted :
    Keeps (Connection.Accounted earlier given) (removeInbound id : HandlerM Id R Unit) :=
  Keeps.modify fun _ h => { h with }

variable {Post : Unit → Connection Id R → Prop} {info : OutboundInfo Id}

/-- What follows the removal of a substream: it is known that its request is not awaited. -/
lemma removeOutbound_accounted {key : SubstreamId} (h : c.Accounted earlier given)
    (hlookup : c.outboundSubstreams.lookup id = some info)
    (post : ∀ c' : Connection Id R, c'.Accounted earlier given → c'.notified = c.notified →
      info.reqId ∈ c'.submitted → info.reqId ∉ c'.awaiting → Post () c') :
    wp (removeOutbound id key) Post (Connection.Accounted earlier given) c := by
  unfold removeOutbound
  rw [wp_bind, wp_get]
  split
  case isTrue =>
    obtain ⟨hremoved, hawaiting⟩ := h.remove hlookup
    rw [wp_modify]
    exact post _ { hremoved with } rfl (h.reqId_settled hlookup).1 hawaiting
  case isFalse => exact { h with }

lemma onStreamClosed_accounted {request : RPCRequest} (h : c.Accounted earlier given)
    (hlookup : c.outboundSubstreams.lookup id = some info) :
    wp (onStreamClosed id info request) Post (Connection.Accounted earlier given) c := by
  unfold onStreamClosed
  rw [wp_bind]
  refine removeOutbound_accounted h hlookup fun c h _ hmem hawaiting => ?_
  split
  case isTrue =>
    split
    case h_1 =>
      refine h.returns hmem (fun _ _ e => by cases e) fun _ _ e => ?_
      cases e
      exact hawaiting
    case h_2 => exact { h with }
  case isFalse => exact h.returns_queued hmem

variable {response : RPCCodedResponse R}

/-- A response is returned. -/
lemma received_accounted {reqId : Id} {proto : Protocol} (h : c.Accounted earlier given)
    (mem : reqId ∈ c.submitted) (hended : ¬ Ended c.notified reqId)
    (hawaiting : response.closeAfter = true → reqId ∉ c.awaiting) :
    Connection.Accounted earlier given
      { c with returned := c.returned ++ [.notifyBehaviour (received reqId proto response)] } := by
  cases response with
  | success response =>
    refine h.returns mem (fun _ _ e => ?_) fun _ _ e => by cases e
    cases e
    exact hended
  | error code reason => exact h.returns_queued mem
  | streamTermination termination =>
    refine h.returns mem (fun _ _ e => by cases e) fun _ _ e => ?_
    cases e
    exact hawaiting rfl

/-- A response on an open substream. -/
lemma onResponse_accounted {request : RPCRequest} (h : c.Accounted earlier given)
    (hlookup : c.outboundSubstreams.lookup id = some info) (hinfo : info.awaiting = {info.reqId}) :
    wp (onResponse id info request response) Post (Connection.Accounted earlier given) c := by
  have hmem := (h.reqId_settled hlookup).1
  have hended := h.not_ended hlookup hinfo
  -- the substream is closed after the response
  have hclose : Connection.Accounted earlier given
      { c with
        outboundSubstreams := c.outboundSubstreams.insert id { info with state := .closing }
        returned := c.returned ++
          [.notifyBehaviour (received info.reqId info.proto response)] } := by
    obtain ⟨hclosed, hawaiting⟩ := h.close hlookup { info with state := .closing } rfl rfl
    exact received_accounted hclosed hmem hended fun _ => hawaiting
  unfold onResponse
  split
  case isFalse => exact hclose
  case isTrue open_ =>
    dsimp only
    split
    case isTrue => exact hclose
    case isFalse =>
      have hkept := h.keep hlookup
        { info with remainingChunks := some ((info.remainingChunks.map (· - 1)).getD 0) } hinfo rfl
      rw [wp_bind, setOutbound, wp_modify, wp_bind, resetOutboundTimer, wp_bind, wp_get]
      split
      · rw [wp_pure, wp_ready]
        exact received_accounted hkept hmem hended fun closes => by simp [open_.2] at closes
      · exact { hkept with }

/-- A round of the loop over the outbound substreams. -/
lemma driveOutbound_accounted :
    Keeps (Connection.Accounted earlier given) (driveOutbound env id : HandlerM Id R Unit) := by
  rw [keeps_iff]
  intro c h
  unfold driveOutbound
  rw [wp_bind, wp_get]
  split
  case h_1 => exact { h with }
  case h_2 info hlookup =>
    split
    case h_1 request hstate =>
      have hinfo : info.awaiting = {info.reqId} := by rw [OutboundInfo.awaiting, hstate]
      split
      case isTrue =>
        rw [wp_modify]
        have hclosed := (h.close hlookup { info with state := .closing } rfl rfl).1
        refine { hclosed with queued := fun event mem => ?_ }
        rcases List.mem_append.mp mem with mem | mem
        · exact h.queued event mem
        · rw [List.mem_singleton.mp mem]
          exact (h.reqId_settled hlookup).1
      case isFalse =>
        split
        case h_1 => exact h
        case h_2 => exact onStreamClosed_accounted h hlookup
        case h_3 => exact onResponse_accounted h hlookup hinfo
        case h_4 =>
          rw [wp_bind]
          refine removeOutbound_accounted h hlookup fun c h _ hmem _ => ?_
          exact h.returns_queued hmem
    case h_2 =>
      split
      case isTrue =>
        rw [wp_bind]
        refine removeOutbound_accounted h hlookup fun c h _ hmem hawaiting => ?_
        split
        · refine h.returns hmem (fun _ _ e => by cases e) fun _ _ e => ?_
          cases e
          exact hawaiting
        · exact h
      case isFalse => exact h
    case h_3 => exact { h with }

/-- A request moves from the queue to negotiation. -/
lemma establishOutbound_accounted :
    Keeps (Connection.Accounted earlier given) (establishOutbound : HandlerM Id R Unit) := by
  rw [keeps_iff]
  intro c h
  unfold establishOutbound
  rw [wp_bind, wp_get]
  split
  case h_1 => exact h
  case h_2 reqId req dialQueue e =>
    split
    case isTrue =>
      rw [wp_bind, wp_modify, wp_ready]
      have hawaiting : awaitingIds dialQueue (c.negotiating ++ [(reqId, req)])
          c.outboundSubstreams = c.awaiting := by
        simp only [Connection.awaiting, awaitingIds, e, List.map_append, List.map_cons,
          List.map_nil, ← Multiset.coe_add, ← Multiset.cons_coe, ← Multiset.singleton_add,
          Multiset.coe_nil]
        abel
      have hmoved : Connection.Accounted earlier given
          { c with dialQueue, negotiating := c.negotiating ++ [(reqId, req)] } := by
        refine h.internal ⟨(List.append_nil _).symm, rfl, ?_, fun _ _ hlookup _ => hlookup,
          fun _ mem => .inl mem⟩
        rw [Multiset.coe_nil, add_zero]
        exact le_of_eq hawaiting
      exact Connection.Accounted.returns_other { hmoved with } rfl
    case isFalse => exact h

lemma poll_accounted :
    Keeps (Connection.Accounted earlier given) (poll env : HandlerM Id R Unit) := by
  apply poll_keeps
  case close => exact fun _ _ h => h.returns_other rfl
  case eventsOut => exact pollEventsOut_accounted
  case shutdown => exact pollShutdown_accounted
  case expireInbound => exact fun _ => expireInbound_accounted
  case expireOutbound => exact fun _ => expireOutbound_accounted
  case driveInbound => exact fun _ => driveInboundAt_accounted
  case removeInbound => exact fun _ => removeInbound_accounted
  case driveOutbound => exact fun _ => driveOutbound_accounted
  case establish => exact establishOutbound_accounted

end

/-! ## Whole calls -/

/-- The requests that a call gives to the connection. -/
def ConnectionEvent.given : ConnectionEvent Id R → List Id
  | .request id _ => [id]
  | .response .. => []
  | .shutdown id _ => [id]
  | .fullyNegotiatedInbound _ => []
  | .fullyNegotiatedOutbound .. => []
  | .dialUpgradeError .. => []
  | .poll _ => []

/-- Every call keeps the account, if the requests that it gives are new. -/
lemma ConnectionEvent.apply_accounted [DecidableEq Id] {earlier : List (HandlerEvent Id R)}
    {given : List Id} {event : ConnectionEvent Id R} (h : c.Accounted earlier given)
    (alive : c.panicked = none) (possible : event.Possible c)
    (nodup : (given ++ event.given).Nodup) :
    (event.apply c).Accounted earlier (given ++ event.given) := by
  -- a call that gives no request
  have internal : (event.run c).2.Accounted earlier given → event.given = [] →
      (event.run c).2.Accounted earlier (given ++ event.given) := by
    intro hrun e
    rwa [e, List.append_nil]
  unfold apply
  rw [alive]
  cases event with
  | request id req => exact h.step Connection.Holds.submit.sendRequest nodup
  | response id message => exact internal (h.internal sendResponse_step) rfl
  | shutdown id reason => exact h.step (shutdown_step (some (id, reason))) nodup
  | fullyNegotiatedInbound req => exact internal (h.internal onFullyNegotiatedInbound_step) rfl
  | fullyNegotiatedOutbound id req =>
    exact internal (wp_const_iff.mp (onFullyNegotiatedOutbound_accounted h possible)) rfl
  | dialUpgradeError id req error =>
    exact internal (wp_const_iff.mp (onDialUpgradeError_accounted h possible)) rfl
  | poll env => exact internal (poll_accounted c h) rfl

end

end Alys.Rpc
