import Alys.Lib.Run
import Alys.Network.Handler

/-!
# Runs of a connection

The handler of a connection under every sequence of the calls that it gets: requests, responses and
shutdowns from the node, negotiated substreams and failed negotiations from the connection, and
polls with any answers. No such run panics: a substream is never found in its temporary state, the
timers that are set again or removed are pending, and the count of dials does not underflow.

The count of dials is where the code is wrong. A failed negotiation that is tried again leaves it as
it is, although the substream request is no longer outstanding.
-/

namespace Alys.Rpc
open Lib Lib.Action

section

variable {Id R : Type}

/-! ## Events -/

/-- A call of the handler. -/
inductive ConnectionEvent (Id R : Type) where
  /-- `RPCSend::Request` -/
  | request (id : Id) (req : RPCRequest)
  /-- `RPCSend::Response` -/
  | response (inboundId : SubstreamId) (message : RPCCodedResponse R)
  /-- `RPCSend::Shutdown` -/
  | shutdown (id : Id) (reason : Nat)
  | fullyNegotiatedInbound (req : RPCRequest)
  | fullyNegotiatedOutbound (id : Id) (req : RPCRequest)
  | dialUpgradeError (id : Id) (req : RPCRequest) (error : StreamUpgradeError)
  | poll (env : PollEnv R)

/-- The loops of a poll go through each substream once. -/
structure PollEnv.Visits (env : PollEnv R) (c : Connection Id R) : Prop where
  inboundNodup : env.inboundOrder.Nodup
  inbound : ∀ id, id ∈ env.inboundOrder ↔ id ∈ c.inboundSubstreams
  outboundNodup : env.outboundOrder.Nodup
  outbound : ∀ id, id ∈ env.outboundOrder ↔ id ∈ c.outboundSubstreams

namespace ConnectionEvent

/-- A negotiation ends once, and only if it was asked for. -/
def Possible (c : Connection Id R) : ConnectionEvent Id R → Prop
  | .request .. => True
  | .response .. => True
  | .shutdown .. => True
  | .fullyNegotiatedInbound _ => True
  | .fullyNegotiatedOutbound id req => (id, req) ∈ c.negotiating
  | .dialUpgradeError id req _ => (id, req) ∈ c.negotiating
  | .poll env => env.Visits c

variable [DecidableEq Id]

def run : ConnectionEvent Id R → HandlerM Id R Unit
  | .request id req =>
    modify fun c => sendRequest id req { c with submitted := c.submitted ++ [id] }
  | .response inboundId message => modify (sendResponse inboundId message)
  | .shutdown id reason =>
    modify fun c => Rpc.shutdown (some (id, reason)) { c with submitted := c.submitted ++ [id] }
  | .fullyNegotiatedInbound req => modify (onFullyNegotiatedInbound req)
  | .fullyNegotiatedOutbound id req => onFullyNegotiatedOutbound id req
  | .dialUpgradeError id req error => onDialUpgradeError id req error
  | .poll env => Rpc.poll env

/-- The effect of a call; after a panic there is none. -/
def apply (event : ConnectionEvent Id R) (c : Connection Id R) : Connection Id R :=
  if c.panicked.isSome then c else (event.run c).2

end ConnectionEvent

/-- The states of a connection. -/
abbrev ConnectionRun [DecidableEq Id] (c : Connection Id R) : Prop :=
  Run ConnectionEvent.apply ConnectionEvent.Possible .new c

/-! ## Invariants of a poll -/

section

variable {I : Connection Id R → Prop} {env : PollEnv R}

lemma driveAllInbound_keeps (drive : ∀ id, Keeps I (driveInboundAt env id))
    {ids : List SubstreamId} : Keeps I (driveAllInbound env ids) := by
  induction ids with
  | nil => exact Keeps.pure
  | cons id ids ih =>
    refine Keeps.bind (drive id) fun _ => ?_
    exact Keeps.bind ih fun _ => Keeps.pure

variable (close : ∀ c error, I c → I { c with returned := c.returned ++ [.close error] })

include close

lemma pollTimer_keeps {timer : TimerPoll} {expire : SubstreamId → HandlerM Id R Unit} {text : Text}
    (hexpire : ∀ id, Keeps I (expire id)) : Keeps I (pollTimer timer expire text) := by
  unfold pollTimer
  refine Keeps.bind (Keeps.forEach fun id _ => hexpire id) fun _ => ?_
  split
  · exact fun c h => close c _ h
  · exact Keeps.pure

lemma completeShutdown_keeps : Keeps I (completeShutdown : HandlerM Id R Unit) := by
  unfold completeShutdown
  refine Keeps.bind Keeps.get fun _ => ?_
  split
  · exact fun c h => close c _ h
  · exact Keeps.pure

/-- A poll keeps what its stages keep. -/
lemma poll_keeps (eventsOut : Keeps I (pollEventsOut : HandlerM Id R Unit))
    (shutdown : Keeps I (pollShutdown env : HandlerM Id R Unit))
    (expireInbound : ∀ id, Keeps I (expireInbound id : HandlerM Id R Unit))
    (expireOutbound : ∀ id, Keeps I (expireOutbound id : HandlerM Id R Unit))
    (driveInbound : ∀ id, Keeps I (driveInboundAt env id : HandlerM Id R (List SubstreamId)))
    (removeInbound : ∀ id, Keeps I (removeInbound id : HandlerM Id R Unit))
    (driveOutbound : ∀ id, Keeps I (driveOutbound env id : HandlerM Id R Unit))
    (establish : Keeps I (establishOutbound : HandlerM Id R Unit)) :
    Keeps I (poll env : HandlerM Id R Unit) := by
  refine Keeps.bind eventsOut fun _ => ?_
  refine Keeps.bind shutdown fun _ => ?_
  refine Keeps.bind (pollTimer_keeps close expireInbound) fun _ => ?_
  refine Keeps.bind (pollTimer_keeps close expireOutbound) fun _ => ?_
  refine Keeps.bind (driveAllInbound_keeps driveInbound) fun _ => ?_
  refine Keeps.bind (Keeps.forEach fun id _ => removeInbound id) fun _ => ?_
  refine Keeps.bind (Keeps.forEach fun id _ => driveOutbound id) fun _ => ?_
  exact Keeps.bind establish fun _ => completeShutdown_keeps close

end

/-! ## Soundness -/

/-- A substream that can be driven, with its timer pending if it has one. -/
def InboundInfo.Sound (id : SubstreamId) (delay : List SubstreamId) (info : InboundInfo R) : Prop :=
  info.state ≠ .poisoned ∧ ∀ key, info.delayKey = some key → key = id ∧ id ∈ delay

def OutboundInfo.Sound (id : SubstreamId) (delay : List SubstreamId) (info : OutboundInfo Id) :
    Prop :=
  info.state ≠ .poisoned ∧ info.delayKey = id ∧ id ∈ delay

/-- The inbound substreams are sound, apart from those that are about to be removed. -/
def InboundsSound (removed : List SubstreamId) (m : Map SubstreamId (InboundInfo R))
    (delay : List SubstreamId) : Prop :=
  ∀ id info, m.lookup id = some info → id ∉ removed → info.Sound id delay

def OutboundsSound (m : Map SubstreamId (OutboundInfo Id)) (delay : List SubstreamId) : Prop :=
  ∀ id info, m.lookup id = some info → info.Sound id delay

/-- The invariant of a connection, with the inbound substreams that are about to be removed. -/
structure Connection.Sound (removed : List SubstreamId) (c : Connection Id R) : Prop where
  alive : c.panicked = none
  inbound : InboundsSound removed c.inboundSubstreams c.inboundSubstreamsDelay
  outbound : OutboundsSound c.outboundSubstreams c.outboundSubstreamsDelay
  dials : c.dialNegotiated = c.negotiating.length + c.retried

variable {c : Connection Id R} {removed : List SubstreamId} {env : PollEnv R}

/-- What holds between the stages of a poll. -/
def PollEnv.Between (env : PollEnv R) (c : Connection Id R) : Prop := c.Sound [] ∧ env.Visits c

@[simp] lemma wp_ready {α : Type} {event : ConnectionHandlerEvent Id R}
    {Post : α → Connection Id R → Prop} {Err : Connection Id R → Prop} :
    wp (ready event) Post Err c ↔ Err { c with returned := c.returned ++ [event] } := by
  rw [ready, wp_bind, wp_modify, wp_fail]

@[simp] lemma wp_panic {α : Type} {reason : HandlerPanic} {Post : α → Connection Id R → Prop}
    {Err : Connection Id R → Prop} :
    wp (panic reason) Post Err c ↔ Err { c with panicked := some reason } := by
  rw [panic, wp_bind, wp_modify, wp_fail]

/-- What was returned does not matter. -/
lemma Connection.Sound.returned (h : c.Sound removed)
    (returned : List (ConnectionHandlerEvent Id R)) : Sound removed { c with returned } :=
  { h with }

lemma pollEventsOut_sound (h : env.Between c) :
    wp pollEventsOut (fun _ => env.Between) (Connection.Sound []) c := by
  unfold pollEventsOut
  rw [wp_bind, wp_get]
  split
  case h_1 => exact h
  case h_2 => exact { h.1 with }

lemma pollShutdown_sound (h : env.Between c) :
    wp (pollShutdown env) (fun _ => env.Between) (Connection.Sound []) c := by
  unfold pollShutdown
  rw [wp_bind, wp_get]
  split
  case isTrue => exact { h.1 with }
  case isFalse => exact h

/-! ### Timers -/

lemma mem_insert_of_lookup {V : Type} {m : Map SubstreamId V} {id : SubstreamId} {v v' : V}
    (hlookup : m.lookup id = some v) {id' : SubstreamId} : id' ∈ m.insert id v' ↔ id' ∈ m := by
  rw [Finmap.mem_insert, or_iff_right_of_imp]
  rintro rfl
  exact Finmap.mem_of_lookup_eq_some hlookup

section

variable {id id' : SubstreamId} {delay : List SubstreamId}

/-- A timer of another substream that is no longer pending. -/
lemma InboundInfo.Sound.erase {info : InboundInfo R} (h : info.Sound id delay) (ne : id ≠ id') :
    info.Sound id (delay.erase id') := by
  refine ⟨h.1, fun key hkey => ?_⟩
  obtain ⟨rfl, mem⟩ := h.2 key hkey
  exact ⟨rfl, (List.mem_erase_of_ne ne).mpr mem⟩

lemma OutboundInfo.Sound.erase {info : OutboundInfo Id} (h : info.Sound id delay) (ne : id ≠ id') :
    info.Sound id (delay.erase id') :=
  ⟨h.1, h.2.1, (List.mem_erase_of_ne ne).mpr h.2.2⟩

namespace InboundsSound

variable {m : Map SubstreamId (InboundInfo R)} {info : InboundInfo R}

lemma forget (h : InboundsSound removed m delay) (hlookup : m.lookup id = none) :
    InboundsSound removed m (delay.erase id) := by
  intro id' info' hlookup' hremoved
  refine (h id' info' hlookup' hremoved).erase ?_
  rintro rfl
  cases hlookup.symm.trans hlookup'

/-- A substream that is changed, while the timers of the others stay. -/
lemma insert {delay' : List SubstreamId} (h : InboundsSound removed m delay)
    (hdelay : ∀ id' ≠ id, id' ∈ delay → id' ∈ delay')
    (hinfo : id ∉ removed → info.Sound id delay') :
    InboundsSound removed (m.insert id info) delay' := by
  intro id' info' hlookup' hremoved
  rcases lookup_insert_eq_some.mp hlookup' with ⟨rfl, rfl⟩ | ⟨ne, hlookup'⟩
  · exact hinfo hremoved
  · obtain ⟨hstate, hkey⟩ := h id' info' hlookup' hremoved
    exact ⟨hstate, fun key e => ⟨(hkey key e).1, hdelay id' ne (hkey key e).2⟩⟩

lemma mono {removed' : List SubstreamId} (h : InboundsSound removed m delay)
    (sub : removed ⊆ removed') : InboundsSound removed' m delay :=
  fun id info hlookup hremoved => h id info hlookup fun mem => hremoved (sub mem)

lemma erase (h : InboundsSound (id :: removed) m delay) :
    InboundsSound removed (m.erase id) delay := by
  intro id' info' hlookup' hremoved
  obtain ⟨ne, hlookup'⟩ := lookup_erase_eq_some.mp hlookup'
  exact h id' info' hlookup' (List.not_mem_cons_of_ne_of_not_mem ne hremoved)

lemma expire (h : InboundsSound removed m delay) (hlookup : m.lookup id = some info) :
    InboundsSound removed (m.insert id info.expire) (delay.erase id) := by
  refine h.insert (fun id' ne => (List.mem_erase_of_ne ne).mpr) fun hremoved => ?_
  refine ⟨(h id info hlookup hremoved).1, fun key hkey => ?_⟩
  cases hkey

end InboundsSound

namespace OutboundsSound

variable {m : Map SubstreamId (OutboundInfo Id)} {info : OutboundInfo Id}

lemma forget (h : OutboundsSound m delay) (hlookup : m.lookup id = none) :
    OutboundsSound m (delay.erase id) := by
  intro id' info' hlookup'
  refine (h id' info' hlookup').erase ?_
  rintro rfl
  cases hlookup.symm.trans hlookup'

lemma erase (h : OutboundsSound m delay) : OutboundsSound (m.erase id) (delay.erase id) := by
  intro id' info' hlookup'
  obtain ⟨ne, hlookup'⟩ := lookup_erase_eq_some.mp hlookup'
  exact (h id' info' hlookup').erase ne

lemma insert (h : OutboundsSound m delay) (hinfo : info.Sound id delay) :
    OutboundsSound (m.insert id info) delay := by
  intro id' info' hlookup'
  rcases lookup_insert_eq_some.mp hlookup' with ⟨rfl, rfl⟩ | ⟨_, hlookup'⟩
  · exact hinfo
  · exact h id' info' hlookup'

end OutboundsSound

end

variable {id : SubstreamId} {answers : List SinkAnswer} {info : InboundInfo R}

lemma expireInbound_sound (h : env.Between c) :
    wp (expireInbound id) (fun _ => env.Between) (Connection.Sound []) c := by
  obtain ⟨hsound, hvisits⟩ := h
  unfold expireInbound
  rw [wp_bind, wp_get]
  split
  case isFalse => exact ⟨hsound, hvisits⟩
  case isTrue =>
    rw [wp_bind, wp_modify]
    split
    case h_1 hlookup =>
      exact ⟨{ hsound with inbound := hsound.inbound.forget hlookup }, { hvisits with }⟩
    case h_2 info hlookup =>
      refine ⟨{ hsound with inbound := hsound.inbound.expire hlookup },
        { hvisits with inbound := fun id' => ?_ }⟩
      exact (hvisits.inbound id').trans (mem_insert_of_lookup hlookup).symm

lemma expireOutbound_sound (h : env.Between c) :
    wp (expireOutbound id) (fun _ => env.Between) (Connection.Sound []) c := by
  obtain ⟨hsound, hvisits⟩ := h
  unfold expireOutbound
  rw [wp_bind, wp_get]
  split
  case isFalse => exact ⟨hsound, hvisits⟩
  case isTrue =>
    rw [wp_bind, wp_modify]
    split
    case h_1 hlookup =>
      exact ⟨{ hsound with outbound := hsound.outbound.forget hlookup }, { hvisits with }⟩
    case h_2 info hlookup =>
      rw [wp_bind, wp_modify, wp_ready]
      exact { hsound with outbound := hsound.outbound.erase }

lemma pollTimer_sound {timer : TimerPoll} {expire : SubstreamId → HandlerM Id R Unit} {text : Text}
    (hexpire : ∀ id c, env.Between c →
      wp (expire id) (fun _ => env.Between) (Connection.Sound []) c)
    (h : env.Between c) :
    wp (pollTimer timer expire text) (fun _ => env.Between) (Connection.Sound []) c := by
  unfold pollTimer
  rw [wp_bind]
  refine wp_mono (wp_forEach (I := fun _ => env.Between) (fun id _ c => hexpire id c) h) ?_
    fun _ => id
  intro _ c hc
  split
  case isTrue => exact hc.1.returned _
  case isFalse => exact hc

/-! ### Inbound substreams -/

/-- Driving a substream keeps its timer. Its state is the temporary one only if it is to be
removed. -/
structure Driven.FollowsFrom (info : InboundInfo R) (d : Driven R) : Prop where
  delayKey : d.info.delayKey = info.delayKey
  poisoned : d.info.state = .poisoned → d.remove = true

variable {deactivated : Bool} {close : Poll (Except RPCError Unit)}

/-- The loop while the substream is busy. -/
lemma driveBusy_follows {pendingItems : List (RPCCodedResponse R)} {fut : SendFuture R} :
    (driveBusy deactivated pendingItems answers info fut).FollowsFrom info := by
  induction pendingItems generalizing answers info fut with
  | nil =>
    unfold driveBusy
    split <;> exact ⟨rfl, by simp⟩
  | cons message pendingItems ih =>
    unfold driveBusy
    split
    case h_2 =>
      dsimp only
      split
      case isTrue => exact ⟨rfl, by simp⟩
      case isFalse =>
        obtain ⟨hkey, hpoisoned⟩ := @ih answers.tail
          { info with remainingChunks := info.remainingChunks - 1 }
          (.sending message (info.remainingChunks - 1 ≤ 1))
        exact ⟨hkey, hpoisoned⟩
    all_goals exact ⟨rfl, by simp⟩

lemma driveInbound_follows {d : Driven R}
    (e : driveInbound deactivated close answers info = .ok d) :
    d.FollowsFrom info := by
  unfold driveInbound at e
  split at e
  case h_1 hstate =>
    split at e
    · split at e
      · cases e
        exact ⟨rfl, by simp [hstate]⟩
      · cases e
        exact ⟨rfl, fun _ => rfl⟩
    · split at e
      · cases e
        exact ⟨rfl, by simp [hstate]⟩
      · cases e
        exact driveBusy_follows
  case h_2 =>
    cases e
    exact driveBusy_follows
  case h_3 => cases e

lemma driveInbound_error {reason : HandlerPanic}
    (e : driveInbound deactivated close answers info = .error reason) :
    info.state = .poisoned := by
  unfold driveInbound at e
  split at e
  case h_1 => repeat (first | cases e | split at e)
  case h_2 => cases e
  case h_3 hstate => exact hstate

/-- The timer of a substream that is driven is pending, and stays so unless it is removed. -/
lemma Driven.FollowsFrom.timer {delay : List SubstreamId} {d : Driven R} (h : d.FollowsFrom info)
    (hinfo : info.Sound id delay) :
    d.timerOk delay = true ∧ (∀ id' ≠ id, id' ∈ delay → id' ∈ d.delay delay) ∧
      (d.remove = false → d.info.Sound id (d.delay delay)) := by
  have hstate : d.remove = false → d.info.state ≠ .poisoned := by
    intro hremove hpoisoned
    rw [h.poisoned hpoisoned] at hremove
    cases hremove
  have hkey := hinfo.2
  rw [← h.delayKey] at hkey
  unfold Driven.timerOk Driven.delay InboundInfo.Sound
  cases e : d.info.delayKey with
  | none => exact ⟨rfl, fun _ _ mem => mem, fun hremove => ⟨hstate hremove, fun _ e => by cases e⟩⟩
  | some key =>
    obtain ⟨rfl, mem⟩ := hkey key e
    refine ⟨by simp [mem], fun id' ne mem' => ?_, fun hremove => ⟨hstate hremove, ?_⟩⟩
    · dsimp only
      split
      · exact (List.mem_erase_of_ne ne).mpr mem'
      · exact mem'
    · intro key' e'
      cases e'
      exact ⟨rfl, by simpa [hremove] using mem⟩

/-- A round of the loop over the inbound substreams does not panic. -/
lemma driveInboundAt_sound (h : c.Sound removed) (hvisits : env.Visits c) (hid : id ∉ removed) :
    wp (driveInboundAt env id)
      (fun removed' c => c.Sound (removed ++ removed') ∧ env.Visits c ∧ removed' ⊆ [id])
      (fun _ => False) c := by
  unfold driveInboundAt
  rw [wp_bind, wp_get]
  split
  case h_1 =>
    rw [wp_pure, List.append_nil]
    exact ⟨h, hvisits, List.nil_subset _⟩
  case h_2 info hlookup =>
    have hinfo := h.inbound id info hlookup hid
    split
    case h_1 reason e => exact absurd (driveInbound_error e) hinfo.1
    case h_2 d e =>
      obtain ⟨hok, hdelay, hdriven⟩ := (driveInbound_follows e).timer hinfo
      rw [if_pos hok, wp_bind, wp_modify, wp_pure]
      refine ⟨{ h with inbound := ?_ }, { hvisits with inbound := ?_ }, ?_⟩
      · refine (h.inbound.mono (List.subset_append_left _ _)).insert hdelay fun hremoved => ?_
        refine hdriven (Bool.eq_false_iff.mpr fun hremove => hremoved ?_)
        simp [hremove]
      · exact fun id' => (hvisits.inbound id').trans (mem_insert_of_lookup hlookup).symm
      · split
        · exact List.Subset.refl _
        · exact List.nil_subset _

/-- The loop over the inbound substreams. -/
lemma driveAllInbound_sound {ids : List SubstreamId} (nodup : ids.Nodup) (h : c.Sound removed)
    (hvisits : env.Visits c) (hids : ∀ id ∈ ids, id ∉ removed) :
    wp (driveAllInbound env ids)
      (fun removed' c => c.Sound (removed ++ removed') ∧ env.Visits c) (fun _ => False) c := by
  induction ids generalizing c removed with
  | nil =>
    rw [driveAllInbound, wp_pure, List.append_nil]
    exact ⟨h, hvisits⟩
  | cons id ids ih =>
    rw [List.nodup_cons] at nodup
    rw [driveAllInbound, wp_bind]
    refine wp_mono (driveInboundAt_sound h hvisits (hids id List.mem_cons_self)) ?_
      fun _ => False.elim
    rintro removed' c ⟨h, hvisits, hsub⟩
    rw [wp_bind]
    refine wp_mono (ih nodup.2 h hvisits fun id' mem mem' => ?_) ?_ fun _ => False.elim
    · rcases List.mem_append.mp mem' with mem' | mem'
      · exact hids id' (List.mem_cons_of_mem _ mem) mem'
      · rw [List.mem_singleton.mp (hsub mem')] at mem
        exact nodup.1 mem
    · rintro removed'' c ⟨h, hvisits⟩
      rw [wp_pure, ← List.append_assoc]
      exact ⟨h, hvisits⟩

/-! ### Outbound substreams -/

/-- What holds during the loop over the outbound substreams, with those that are left. -/
structure Remaining (rest : List SubstreamId) (c : Connection Id R) : Prop where
  sound : c.Sound []
  nodup : rest.Nodup
  mem : ∀ id ∈ rest, id ∈ c.outboundSubstreams

lemma removeInbound_sound {ids rest : List SubstreamId} (h : c.Sound ids) (nodup : rest.Nodup)
    (hmem : ∀ id ∈ rest, id ∈ c.outboundSubstreams) :
    wp (forEach ids removeInbound) (fun _ => Remaining rest) (fun _ => False) c := by
  refine wp_mono (wp_forEach (I := fun ids c => c.Sound ids ∧
    ∀ id ∈ rest, id ∈ c.outboundSubstreams) ?_ ⟨h, hmem⟩) (fun _ _ h => ⟨h.1, nodup, h.2⟩)
    fun _ => id
  rintro id ids c ⟨h, hmem⟩
  rw [removeInbound, wp_modify]
  exact ⟨{ h with inbound := h.inbound.erase }, hmem⟩

section

variable {id : SubstreamId} {info : OutboundInfo Id} {rest : List SubstreamId}
  {Post : Unit → Connection Id R → Prop}

lemma wp_removeOutbound {key : SubstreamId} {Err : Connection Id R → Prop}
    (mem : key ∈ c.outboundSubstreamsDelay) :
    wp (removeOutbound id key) Post Err c ↔
      Post ()
        { c with
          outboundSubstreamsDelay := c.outboundSubstreamsDelay.erase key
          outboundSubstreams := c.outboundSubstreams.erase id } := by
  rw [removeOutbound, wp_bind, wp_get, if_pos mem]
  exact wp_modify

lemma Connection.Sound.removeOutbound (h : c.Sound []) :
    Sound []
      { c with
        outboundSubstreamsDelay := c.outboundSubstreamsDelay.erase id
        outboundSubstreams := c.outboundSubstreams.erase id } :=
  { h with outbound := h.outbound.erase }

variable {request : RPCRequest}

/-- Only requests for several responses have a termination, and those have one. -/
lemma streamTermination_of_lt (lt : 1 < request.expectedResponses) :
    streamTermination request = some .blocksByRange := by
  cases request with
  | blocksByRange => rfl
  | status => exact absurd lt (Nat.lt_irrefl 1)
  | goodbye => exact absurd lt (Nat.not_lt_zero 1)
  | ping => exact absurd lt (Nat.lt_irrefl 1)
  | metaData => exact absurd lt (Nat.lt_irrefl 1)

lemma onStreamClosed_sound (h : c.Sound []) (hinfo : info.Sound id c.outboundSubstreamsDelay) :
    wp (onStreamClosed id info request) Post (Connection.Sound []) c := by
  obtain ⟨_, hkey, mem⟩ := hinfo
  unfold onStreamClosed
  rw [hkey, wp_bind, wp_removeOutbound mem]
  split
  case isTrue lt =>
    rw [streamTermination_of_lt lt]
    exact h.removeOutbound.returned _
  case isFalse => exact h.removeOutbound.returned _

/-- A response on an outbound substream. -/
lemma onResponse_sound {response : RPCCodedResponse R} (h : c.Sound [])
    (hinfo : info.Sound id c.outboundSubstreamsDelay) :
    wp (onResponse id info request response) Post (Connection.Sound []) c := by
  have hset : ∀ info' : OutboundInfo Id, info'.Sound id c.outboundSubstreamsDelay →
      Connection.Sound [] { c with outboundSubstreams := c.outboundSubstreams.insert id info' } :=
    fun info' hinfo' => { h with outbound := h.outbound.insert hinfo' }
  have hclosing := hset { info with state := .closing } ⟨by simp, hinfo.2⟩
  have hkey : info.delayKey ∈ c.outboundSubstreamsDelay := hinfo.2.1 ▸ hinfo.2.2
  unfold onResponse
  split
  case isTrue =>
    dsimp only
    split
    case isTrue => exact hclosing.returned _
    case isFalse =>
      rw [wp_bind, setOutbound, wp_modify, wp_bind, resetOutboundTimer, wp_bind, wp_get,
        if_pos hkey]
      exact (hset { info with remainingChunks := some _ } hinfo).returned _
  case isFalse => exact hclosing.returned _

/-- A round of the loop over the outbound substreams does not panic. -/
lemma driveOutbound_sound (h : Remaining (id :: rest) c) :
    wp (driveOutbound env id) (fun _ => Remaining rest) (Connection.Sound []) c := by
  obtain ⟨hsound, nodup, hmem⟩ := h
  rw [List.nodup_cons] at nodup
  rw [List.forall_mem_cons] at hmem
  unfold driveOutbound
  rw [wp_bind, wp_get]
  split
  case h_1 hlookup => exact absurd hmem.1 (Finmap.lookup_eq_none.mp hlookup)
  case h_2 info hlookup =>
    have hinfo := hsound.outbound id info hlookup
    split
    case h_1 request hstate =>
      split
      case isTrue =>
        rw [wp_modify]
        refine ⟨{ hsound with outbound := hsound.outbound.insert ⟨by simp, hinfo.2⟩ }, nodup.2, ?_⟩
        exact fun id' mem => (mem_insert_of_lookup hlookup).mpr (hmem.2 id' mem)
      case isFalse =>
        split
        case h_1 => exact ⟨hsound, nodup.2, hmem.2⟩
        case h_2 => exact onStreamClosed_sound hsound hinfo
        case h_3 => exact onResponse_sound hsound hinfo
        case h_4 =>
          rw [wp_bind, hinfo.2.1, wp_removeOutbound hinfo.2.2]
          exact hsound.removeOutbound.returned _
    case h_2 =>
      split
      case isTrue =>
        rw [wp_bind, hinfo.2.1, wp_removeOutbound hinfo.2.2]
        split
        case isTrue => exact hsound.removeOutbound.returned _
        case isFalse =>
          refine ⟨hsound.removeOutbound, nodup.2, fun id' mem => Finmap.mem_erase.mpr ⟨?_, ?_⟩⟩
          · rintro rfl
            exact nodup.1 mem
          · exact hmem.2 id' mem
      case isFalse => exact ⟨hsound, nodup.2, hmem.2⟩
    case h_3 hstate => exact absurd hstate hinfo.1

end

/-! ### The whole poll -/

lemma establishOutbound_sound (h : c.Sound []) :
    wp establishOutbound (fun _ => Connection.Sound []) (Connection.Sound []) c := by
  unfold establishOutbound
  rw [wp_bind, wp_get]
  split
  case h_1 => exact h
  case h_2 id req dialQueue _ =>
    split
    case isTrue =>
      rw [wp_bind, wp_modify, wp_ready]
      refine { h with dials := ?_ }
      simp only [List.length_append, List.length_singleton, h.dials]
      omega
    case isFalse => exact h

lemma completeShutdown_sound (h : c.Sound []) :
    wp completeShutdown (fun _ => Connection.Sound []) (Connection.Sound []) c := by
  unfold completeShutdown
  rw [wp_bind, wp_get]
  split
  case isTrue => exact h.returned _
  case isFalse => exact h

/-- A poll keeps the connection sound. -/
lemma poll_sound (h : env.Between c) :
    wp (poll env) (fun _ => Connection.Sound []) (Connection.Sound []) c := by
  unfold poll
  rw [wp_bind]
  refine wp_mono (pollEventsOut_sound h) (fun _ c h => ?_) fun _ => id
  rw [wp_bind]
  refine wp_mono (pollShutdown_sound h) (fun _ c h => ?_) fun _ => id
  rw [wp_bind]
  refine wp_mono (pollTimer_sound (fun _ _ => expireInbound_sound) h) (fun _ c h => ?_) fun _ => id
  rw [wp_bind]
  refine wp_mono (pollTimer_sound (fun _ _ => expireOutbound_sound) h) (fun _ c h => ?_) fun _ => id
  rw [wp_bind]
  refine wp_mono (driveAllInbound_sound h.2.inboundNodup h.1 h.2 fun _ _ => List.not_mem_nil) ?_
    fun _ => False.elim
  rintro removed c ⟨h, hvisits⟩
  rw [wp_bind]
  refine wp_mono (removeInbound_sound h hvisits.outboundNodup fun id => (hvisits.outbound id).mp)
    (fun _ c h => ?_) fun _ => False.elim
  rw [wp_bind]
  refine wp_mono (wp_forEach (I := Remaining) (fun _ _ _ => driveOutbound_sound) h)
    (fun _ c h => ?_) fun _ => id
  rw [wp_bind]
  exact wp_mono (establishOutbound_sound h.sound) (fun _ c => completeShutdown_sound) fun _ => id

/-! ### The other calls -/

variable {req : RPCRequest}

lemma sendRequest_sound {id : Id} (h : c.Sound []) :
    (sendRequest id req c).Sound [] := by
  unfold sendRequest
  split
  · exact { h with }
  · exact { h with }

lemma shutdown_sound {goodbyeReason : Option (Id × Nat)} (h : c.Sound []) :
    (shutdown goodbyeReason c).Sound [] := by
  unfold shutdown
  split
  · exact { h with }
  · exact h

lemma sendResponse_sound {id : SubstreamId} {response : RPCCodedResponse R} (h : c.Sound []) :
    (sendResponse id response c).Sound [] := by
  unfold sendResponse
  split
  case h_1 => exact h
  case h_2 info hlookup =>
    dsimp only
    split
    case isTrue => exact { h with }
    case isFalse =>
      exact { h with inbound := h.inbound.insert (fun _ _ mem => mem) (h.inbound id info hlookup) }

/-- A new inbound substream gets an id of its own. -/
lemma onFullyNegotiatedInbound_sound (h : c.Sound []) :
    (onFullyNegotiatedInbound req c).Sound [] := by
  unfold onFullyNegotiatedInbound
  split
  case isFalse => exact h
  case isTrue =>
    dsimp only
    split
    case isTrue => exact shutdown_sound { h with }
    case isFalse =>
      -- the substream that may be kept
      have hkept : Connection.Sound [] (if 0 < req.expectedResponses then
          { c with
            inboundSubstreamsDelay := c.inboundSubstreamsDelay ++ [c.currentInboundSubstreamId]
            inboundSubstreams := c.inboundSubstreams.insert c.currentInboundSubstreamId
              ⟨.idle, [], req.protocol, req.expectedResponses, some c.currentInboundSubstreamId⟩
            accepted := c.accepted ++ [(c.currentInboundSubstreamId, req)] }
        else c) := by
        split
        · refine { h with inbound := h.inbound.insert (fun _ _ mem => ?_) fun _ => ⟨by simp, ?_⟩ }
          · exact List.mem_append_left _ mem
          · intro key e
            cases e
            exact ⟨rfl, by simp⟩
        · exact h
      split
      · exact { shutdown_sound hkept with }
      · exact { hkept with }

lemma reportDeactivated_sound {id : Id} (h : c.Sound []) :
    (reportDeactivated id req c).Sound [] := by
  unfold reportDeactivated
  split
  · exact { h with }
  · exact h

lemma storeOutbound_sound {id : Id} (h : c.Sound []) :
    (storeOutbound id req c).Sound [] := by
  unfold storeOutbound
  split
  case isFalse => exact h
  case isTrue =>
    have hold : OutboundsSound c.outboundSubstreams
        (c.outboundSubstreamsDelay ++ [c.currentOutboundSubstreamId]) := by
      intro id' info' hlookup'
      obtain ⟨hstate, hkey, mem⟩ := h.outbound id' info' hlookup'
      exact ⟨hstate, hkey, List.mem_append_left _ mem⟩
    exact { h with outbound := hold.insert ⟨by simp, rfl, by simp⟩ }

section

variable [DecidableEq Id] {id : Id} {req : RPCRequest}

/-- A negotiation that ends was counted. -/
lemma releaseDial_sound {Post : Unit → Connection Id R → Prop} {Err : Connection Id R → Prop}
    (h : c.Sound []) (mem : (id, req) ∈ c.negotiating)
    (post : ∀ c' : Connection Id R, c'.Sound [] → Post () c') :
    wp releaseDial Post Err { c with negotiating := c.negotiating.erase (id, req) } := by
  have hlength := List.length_erase_of_mem mem
  have hpos := List.length_pos_of_mem mem
  have hdials := h.dials
  unfold releaseDial
  rw [wp_bind, wp_get, if_neg (by dsimp only; omega), wp_modify]
  refine post _ { h with dials := ?_ }
  dsimp only
  omega

lemma onFullyNegotiatedOutbound_sound (h : c.Sound []) (mem : (id, req) ∈ c.negotiating) :
    wp (onFullyNegotiatedOutbound id req) (fun _ => Connection.Sound []) (Connection.Sound [])
      c := by
  unfold onFullyNegotiatedOutbound
  rw [wp_bind, wp_modify, wp_bind]
  refine releaseDial_sound h mem fun c h => ?_
  rw [wp_bind, wp_modify, wp_bind, wp_modify, wp_modify]
  exact storeOutbound_sound (reportDeactivated_sound { h with })

lemma onDialUpgradeError_sound {error : StreamUpgradeError} (h : c.Sound [])
    (mem : (id, req) ∈ c.negotiating) :
    wp (onDialUpgradeError id req error) (fun _ => Connection.Sound []) (Connection.Sound [])
      c := by
  have hlength := List.length_erase_of_mem mem
  have hpos := List.length_pos_of_mem mem
  have hdials := h.dials
  unfold onDialUpgradeError
  rw [wp_bind, wp_modify, wp_bind, wp_get]
  split
  case isTrue =>
    rw [wp_modify]
    refine sendRequest_sound { h with dials := ?_ }
    dsimp only
    omega
  case isFalse =>
    rw [wp_bind]
    refine releaseDial_sound h mem fun c h => ?_
    exact { h with }

/-- Every call keeps the invariant. -/
lemma ConnectionEvent.apply_sound {event : ConnectionEvent Id R} (h : c.Sound [])
    (possible : event.Possible c) : (event.apply c).Sound [] := by
  have hrun : wp event.run (fun _ => Connection.Sound []) (Connection.Sound []) c := by
    cases event with
    | request id req => exact sendRequest_sound { h with }
    | response id message => exact sendResponse_sound h
    | shutdown id reason => exact shutdown_sound { h with }
    | fullyNegotiatedInbound req => exact onFullyNegotiatedInbound_sound h
    | fullyNegotiatedOutbound id req => exact onFullyNegotiatedOutbound_sound h possible
    | dialUpgradeError id req error => exact onDialUpgradeError_sound h possible
    | poll env => exact poll_sound ⟨h, possible⟩
  unfold apply
  rw [h.alive]
  exact wp_const_iff.mp hrun

/-- No run of a connection panics. -/
lemma ConnectionRun.sound (run : ConnectionRun c) : c.Sound [] := by
  refine run.invariant (I := Connection.Sound []) ⟨rfl, ?_, ?_, rfl⟩ fun c event h possible =>
    ConnectionEvent.apply_sound h possible
  · intro id info hlookup
    cases hlookup
  · intro id info hlookup
    cases hlookup

end

end

/-! ## Dial accounting -/

/-- In every run the handler does not panic, so that its count of dials never underflows. The count
is that of the substream requests that are outstanding if and only if no failed negotiation was
answered by sending the request again. -/
theorem dialNegotiated_iff {Id R : Type} [DecidableEq Id] {c : Connection Id R}
    (run : ConnectionRun c) :
    c.panicked = none ∧ (c.dialNegotiated = c.negotiating.length ↔ c.retried = 0) := by
  have h := run.sound
  refine ⟨h.alive, ?_⟩
  rw [h.dials]
  exact Nat.add_eq_left

/-- A poll during which nothing answers and there are no substreams. -/
def PollEnv.quiet {R : Type} : PollEnv R where
  shutdownElapsed := false
  inboundTimer := ⟨[], false⟩
  outboundTimer := ⟨[], false⟩
  inboundOrder := []
  outboundOrder := []
  sink _ := []
  close _ := none
  stream _ := none
  closed _ := false

/-- A connection after some calls. -/
def Connection.toy (events : List (ConnectionEvent Nat Nat)) : Connection Nat Nat :=
  events.foldl (fun c event => event.apply c) .new

lemma PollEnv.quiet_visits {c : Connection Nat Nat} (inbound : c.inboundSubstreams = ∅)
    (outbound : c.outboundSubstreams = ∅) : PollEnv.quiet.Visits c where
  inboundNodup := List.nodup_nil
  inbound id := by simp [quiet, inbound, Finmap.notMem_empty]
  outboundNodup := List.nodup_nil
  outbound id := by simp [quiet, outbound, Finmap.notMem_empty]

/-- A request for which a substream was asked. -/
lemma Connection.toy_dialled :
    ConnectionRun (Connection.toy [.request 0 (.ping 0), .poll .quiet]) :=
  .snoc (.snoc .refl (ConnectionEvent.request 0 (.ping 0)) trivial) (ConnectionEvent.poll .quiet)
    (PollEnv.quiet_visits rfl rfl)

/-- One substream request is outstanding, and counted. -/
theorem dialNegotiated_toy :
    (Connection.toy [.request 0 (.ping 0), .poll .quiet]).negotiating = [(0, .ping 0)] ∧
      (Connection.toy [.request 0 (.ping 0), .poll .quiet]).dialNegotiated = 1 :=
  ⟨by decide, (dialNegotiated_iff Connection.toy_dialled).2.mpr (by decide)⟩

/-- After an I/O error none is outstanding, and one is counted. -/
theorem dialNegotiated_fails :
    ¬ ∀ (Id R : Type) (_ : DecidableEq Id) (c : Connection Id R), ConnectionRun c →
      c.dialNegotiated = c.negotiating.length := by
  intro all
  have run : ConnectionRun (Connection.toy [.request 0 (.ping 0), .poll .quiet,
      .dialUpgradeError 0 (.ping 0) (.io [])]) :=
    .snoc Connection.toy_dialled (ConnectionEvent.dialUpgradeError 0 (.ping 0) (.io []))
      (List.mem_singleton.mpr rfl)
  have h := all Nat Nat inferInstance _ run
  revert h
  decide

end Alys.Rpc
