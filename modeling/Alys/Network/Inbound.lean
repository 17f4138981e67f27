import Alys.Network.Connection

/-!
# Responses on inbound substreams

The responses that are written to the substream of a request for `k` responses: at most `k`, and
nothing after an error, after the end of the stream or after the last one. The state of a substream
is described by what was written to it. While it is open these are chunks that leave it open, and
together with the remaining ones they are `k`.
-/

namespace Alys.Rpc
open Lib Lib.Action

section

variable {Id R : Type}

/-- At most `k` chunks of a response, and nothing after one that closes the stream or is the last
one. -/
structure Disciplined (k : Nat) (log : List (RPCCodedResponse R)) : Prop where
  successes : (log.filter fun message => !message.closeAfter).length ≤ k
  last : ∀ before message after, log = before ++ message :: after →
    message.closeAfter = true ∨ before.length + 1 = k → after = []

/-- The responses that were written to a substream. -/
def writtenTo (written : List (SubstreamId × RPCCodedResponse R)) (id : SubstreamId) :
    List (RPCCodedResponse R) :=
  (written.filter fun p => decide (p.1 = id)).map (·.2)

/-! ## One substream -/

/-- The chunks that were written left the stream open, and some remain. -/
structure LeavesOpen (k remaining : Nat) (log : List (RPCCodedResponse R)) : Prop where
  open_ : ∀ message ∈ log, message.closeAfter = false
  count : log.length + remaining = k
  pos : 1 ≤ remaining

/-- What was written so far fits to the state of the future. -/
def SendFuture.Fits (k remaining : Nat) (log : List (RPCCodedResponse R)) : SendFuture R → Prop
  | .sending _ lastChunk => LeavesOpen k remaining log ∧ lastChunk = decide (remaining ≤ 1)
  | .flushing message lastChunk => message.isStreamTermination = false ∧
    lastChunk = decide (remaining ≤ 1) ∧ ∃ before, log = before ++ [message] ∧
      LeavesOpen k remaining before
  | .closing _ => Disciplined k log

def SendPoll.Fits (k remaining : Nat) (log : List (RPCCodedResponse R)) : SendPoll R → Prop
  | .pending fut => fut.Fits k remaining log
  | .ready (.ok false) => LeavesOpen k (remaining - 1) log
  | .ready (.ok true) => Disciplined k log
  | .ready (.error _) => Disciplined k log

def InboundState.Fits (k remaining : Nat) (log : List (RPCCodedResponse R)) : InboundState R → Prop
  | .idle => LeavesOpen k remaining log
  | .busy fut => fut.Fits k remaining log
  | .poisoned => Disciplined k log

/-- What was written so far fits to the state of the substream. -/
def InboundInfo.Fits (k : Nat) (log : List (RPCCodedResponse R)) (info : InboundInfo R) : Prop :=
  info.state.Fits k info.remainingChunks log

variable {k remaining : Nat} {log before : List (RPCCodedResponse R)}
  {message : RPCCodedResponse R} {answer : SinkAnswer}

/-- One more message may be written to an open stream. -/
lemma LeavesOpen.concat (h : LeavesOpen k remaining before) :
    Disciplined k (before ++ [message]) := by
  have hlength := h.count
  have hpos := h.pos
  constructor
  · refine (List.length_filter_le _ _).trans ?_
    rw [List.length_append, List.length_singleton]
    omega
  · intro before' message' after e closes
    rcases List.eq_nil_or_concat after with rfl | ⟨after', last, rfl⟩
    · rfl
    · -- the message is one of those before, which leave the stream open
      rw [List.concat_eq_append, ← List.cons_append, ← List.append_assoc,
        List.append_singleton_inj] at e
      obtain ⟨rfl, -⟩ := e
      have hmem := h.open_ message' (by simp)
      rw [List.length_append, List.length_cons] at hlength
      rcases closes with closes | closes
      · rw [hmem] at closes
        cases closes
      · omega

lemma LeavesOpen.disciplined (h : LeavesOpen k remaining log) : Disciplined k log := by
  have hlength := h.count
  have hpos := h.pos
  refine ⟨(List.length_filter_le _ _).trans (by omega), fun before message after e closes => ?_⟩
  subst e
  rw [List.length_append, List.length_cons] at hlength
  rcases closes with closes | closes
  · rw [h.open_ message (by simp)] at closes
    cases closes
  · omega

lemma pollClose_fits {sendResult : Except RPCError Unit} (h : Disciplined k log) :
    (SendFuture.pollClose answer sendResult : SendPoll R).Fits k remaining log := by
  unfold SendFuture.pollClose
  split
  case h_1 => exact h
  case h_2 closeResult _ =>
    split
    case h_1 => exact h
    case h_2 =>
      cases closeResult with
      | ok => exact h
      | error e => exact h

/-- A flush leaves the count of the chunks. -/
lemma pollFlush_fits {lastChunk : Bool}
    (h : (SendFuture.flushing message lastChunk).Fits k remaining log) :
    (SendFuture.pollFlush answer message lastChunk).Fits k remaining log := by
  obtain ⟨hmessage, rfl, before, rfl, hopen⟩ := h
  unfold SendFuture.pollFlush
  split
  case h_1 => exact ⟨hmessage, rfl, before, rfl, hopen⟩
  case h_2 => exact pollClose_fits hopen.concat
  case h_3 =>
    split
    case isTrue => exact pollClose_fits hopen.concat
    case isFalse hlast =>
      -- a chunk of a response, and not the last one
      rw [Bool.or_eq_true, not_or, decide_eq_true_eq, Bool.not_eq_true] at hlast
      have hcount := hopen.count
      refine ⟨?_, ?_, by omega⟩
      · intro message' mem
        rcases List.mem_append.mp mem with mem | mem
        · exact hopen.open_ message' mem
        · cases List.mem_singleton.mp mem
          cases message with
          | success => rfl
          | error => cases hlast.2
          | streamTermination => cases hmessage
      · rw [List.length_append, List.length_singleton]
        omega

variable {fut : SendFuture R} {answers : List SinkAnswer} {info : InboundInfo R}

/-- A poll of the future that sends a response. -/
lemma SendFuture.poll_fits (answer : SinkAnswer) (h : fut.Fits k remaining log) :
    (fut.poll answer).2.Fits k remaining (log ++ (fut.poll answer).1) := by
  cases fut with
  | sending message lastChunk =>
    obtain ⟨hopen, rfl⟩ := h
    unfold poll
    dsimp only
    split
    case isTrue => exact pollClose_fits hopen.concat
    case isFalse htermination =>
      split
      case h_1 =>
        rw [List.append_nil]
        exact ⟨hopen, rfl⟩
      case h_2 =>
        rw [List.append_nil]
        exact pollClose_fits hopen.disciplined
      case h_3 =>
        refine pollFlush_fits ⟨Bool.eq_false_iff.mpr htermination, rfl, log, rfl, hopen⟩
  | flushing message lastChunk =>
    change SendPoll.Fits k remaining (log ++ []) (pollFlush answer message lastChunk)
    rw [List.append_nil]
    exact pollFlush_fits h
  | closing sendResult =>
    change SendPoll.Fits k remaining (log ++ []) (pollClose answer sendResult)
    rw [List.append_nil]
    exact pollClose_fits h

/-- The responses that are sent fit the chunks that remain. -/
lemma driveBusy_fits {deactivated : Bool} {pendingItems : List (RPCCodedResponse R)}
    (h : fut.Fits k info.remainingChunks log) :
    (driveBusy deactivated pendingItems answers info fut).info.Fits k
      (log ++ (driveBusy deactivated pendingItems answers info fut).written) := by
  induction pendingItems generalizing log answers info fut with
  | nil =>
    have hpoll := SendFuture.poll_fits (answers.headD ⟨none, none, none⟩) h
    unfold driveBusy
    split
    all_goals
      rename_i e
      rw [e] at hpoll
      exact hpoll
  | cons message pendingItems ih =>
    have hpoll := SendFuture.poll_fits (answers.headD ⟨none, none, none⟩) h
    unfold driveBusy
    split
    case h_2 written e =>
      rw [e] at hpoll
      dsimp only
      split
      case isTrue => exact hpoll
      case isFalse =>
        -- the next response is sent over the open stream
        rw [← List.append_assoc]
        exact ih ⟨hpoll, rfl⟩
    all_goals
      rename_i e
      rw [e] at hpoll
      exact hpoll

/-- A round of the loop over the inbound substreams. -/
lemma driveInbound_fits {deactivated : Bool} {close : Poll (Except RPCError Unit)} {d : Driven R}
    (h : info.Fits k log) (e : driveInbound deactivated close answers info = .ok d) :
    d.info.Fits k (log ++ d.written) := by
  unfold InboundInfo.Fits at h
  unfold driveInbound at e
  split at e
  case h_1 hstate =>
    rw [hstate] at h
    split at e
    · split at e
      · cases e
        rw [List.append_nil, InboundInfo.Fits, hstate]
        exact h
      · cases e
        rw [List.append_nil]
        exact LeavesOpen.disciplined h
    · split at e
      · cases e
        rw [List.append_nil, InboundInfo.Fits, hstate]
        exact h
      · cases e
        exact driveBusy_fits ⟨h, rfl⟩
  case h_2 fut hstate =>
    rw [hstate] at h
    cases e
    exact driveBusy_fits h
  case h_3 => cases e

lemma SendFuture.Fits.disciplined (h : fut.Fits k remaining log) :
    Disciplined k log := by
  cases fut with
  | sending => exact h.1.disciplined
  | flushing =>
    obtain ⟨_, _, before, rfl, hopen⟩ := h
    exact hopen.concat
  | closing => exact h

lemma InboundInfo.Fits.disciplined (h : info.Fits k log) :
    Disciplined k log := by
  unfold InboundInfo.Fits at h
  cases hstate : info.state with
  | idle =>
    rw [hstate] at h
    exact LeavesOpen.disciplined h
  | busy fut =>
    rw [hstate] at h
    exact SendFuture.Fits.disciplined h
  | poisoned =>
    rw [hstate] at h
    exact h

/-! ## All substreams -/

/-- What was written to every substream fits to its state and keeps the discipline of its
request. -/
structure InboundsFit (m : Map SubstreamId (InboundInfo R))
    (written : List (SubstreamId × RPCCodedResponse R)) (accepted : List (SubstreamId × RPCRequest))
    (current : SubstreamId) : Prop where
  known : ∀ id ∈ m, ∃ req, (id, req) ∈ accepted
  writes : ∀ p ∈ written, ∃ req, (p.1, req) ∈ accepted
  fresh : ∀ p ∈ accepted, p.1 < current
  fits : ∀ id info req, m.lookup id = some info → (id, req) ∈ accepted →
    info.Fits req.expectedResponses (writtenTo written id)
  disciplined : ∀ id req, (id, req) ∈ accepted →
    Disciplined req.expectedResponses (writtenTo written id)

namespace InboundsFit

variable {m : Map SubstreamId (InboundInfo R)} {written : List (SubstreamId × RPCCodedResponse R)}
  {accepted : List (SubstreamId × RPCRequest)} {id current : SubstreamId} {info : InboundInfo R}
  {messages : List (RPCCodedResponse R)}

lemma writtenTo_append :
    writtenTo (written ++ messages.map fun message => (id, message)) id =
      writtenTo written id ++ messages := by
  unfold writtenTo
  rw [List.filter_append, List.map_append, List.filter_map, List.map_map]
  simp [Function.comp_def]

lemma writtenTo_append_of_ne {id' : SubstreamId} (ne : id' ≠ id) :
    writtenTo (written ++ messages.map fun message => (id, message)) id' =
      writtenTo written id' := by
  unfold writtenTo
  rw [List.filter_append, List.map_append, List.filter_map, List.map_map]
  simp [Function.comp_def, Ne.symm ne]

section

variable (h : InboundsFit m written accepted current)

include h

/-- A substream is driven, and its messages are written. -/
lemma write (hlookup : m.lookup id = some info) {info' : InboundInfo R}
    (hinfo : ∀ k, info.Fits k (writtenTo written id) →
      info'.Fits k (writtenTo written id ++ messages)) :
    InboundsFit (m.insert id info') (written ++ messages.map fun message => (id, message)) accepted
      current where
  known id' mem := h.known id' ((mem_insert_of_lookup hlookup).mp mem)
  writes p mem := by
    rcases List.mem_append.mp mem with mem | mem
    · exact h.writes p mem
    · obtain ⟨message, _, rfl⟩ := List.mem_map.mp mem
      exact h.known id (Finmap.mem_of_lookup_eq_some hlookup)
  fresh := h.fresh
  fits id' info'' req hlookup' mem := by
    rcases lookup_insert_eq_some.mp hlookup' with ⟨rfl, rfl⟩ | ⟨ne, hlookup'⟩
    · rw [writtenTo_append]
      exact hinfo _ (h.fits id' info req hlookup mem)
    · rw [writtenTo_append_of_ne ne]
      exact h.fits id' info'' req hlookup' mem
  disciplined id' req mem := by
    by_cases e : id' = id
    · subst e
      rw [writtenTo_append]
      exact (hinfo _ (h.fits id' info req hlookup mem)).disciplined
    · rw [writtenTo_append_of_ne e]
      exact h.disciplined id' req mem

/-- A substream is changed, and nothing is written. -/
lemma update (hlookup : m.lookup id = some info) {info' : InboundInfo R}
    (hinfo : ∀ k log, info.Fits k log → info'.Fits k log) :
    InboundsFit (m.insert id info') written accepted current := by
  have hwrite : InboundsFit (m.insert id info') (written ++ [].map fun message => (id, message))
      accepted current := by
    refine h.write hlookup fun k hfits => ?_
    rw [List.append_nil]
    exact hinfo k _ hfits
  rwa [List.map_nil, List.append_nil] at hwrite

lemma erase :
    InboundsFit (m.erase id) written accepted current where
  known id' mem := h.known id' (Finmap.mem_erase.mp mem).2
  writes := h.writes
  fresh := h.fresh
  fits id' info' req hlookup' mem :=
    h.fits id' info' req (lookup_erase_eq_some.mp hlookup').2 mem
  disciplined := h.disciplined

/-- The id of a request without responses. -/
lemma skip :
    InboundsFit m written accepted (current + 1) :=
  { h with fresh := fun p mem => Nat.lt_succ_of_lt (h.fresh p mem) }

/-- A substream for a new request. -/
lemma accept {req : RPCRequest} (pos : 0 < req.expectedResponses) :
    InboundsFit (m.insert current ⟨.idle, [], req.protocol, req.expectedResponses, some current⟩)
      written (accepted ++ [(current, req)]) (current + 1) := by
  have hnothing : writtenTo written current = [] := by
    unfold writtenTo
    rw [List.map_eq_nil_iff, List.filter_eq_nil_iff]
    intro p mem e
    obtain ⟨req', mem'⟩ := h.writes p mem
    rw [of_decide_eq_true e] at mem'
    exact absurd (h.fresh _ mem') (Nat.lt_irrefl _)
  have hnew : LeavesOpen req.expectedResponses req.expectedResponses
      (writtenTo written current) := by
    rw [hnothing]
    exact ⟨fun _ mem => absurd mem List.not_mem_nil, Nat.zero_add _, pos⟩
  -- the entries of the new id are those of this request
  have hold : ∀ {id' req'}, (id', req') ∈ accepted ++ [(current, req)] →
      (id', req') ∈ accepted ∧ id' ≠ current ∨ id' = current ∧ req' = req := by
    intro id' req' mem
    rcases List.mem_append.mp mem with mem | mem
    · exact .inl ⟨mem, Nat.ne_of_lt (h.fresh _ mem)⟩
    · cases List.mem_singleton.mp mem
      exact .inr ⟨rfl, rfl⟩
  refine ⟨fun id' mem => ?_, fun p mem => ?_, fun p mem => ?_,
    fun id' info' req' hlookup' mem => ?_, fun id' req' mem => ?_⟩
  · rcases Finmap.mem_insert.mp mem with rfl | mem
    · exact ⟨req, by simp⟩
    · obtain ⟨req', mem'⟩ := h.known id' mem
      exact ⟨req', List.mem_append_left _ mem'⟩
  · obtain ⟨req', mem'⟩ := h.writes p mem
    exact ⟨req', List.mem_append_left _ mem'⟩
  · rcases List.mem_append.mp mem with mem | mem
    · exact Nat.lt_succ_of_lt (h.fresh p mem)
    · cases List.mem_singleton.mp mem
      exact Nat.lt_succ_self _
  · rcases hold mem with ⟨mem, ne⟩ | ⟨rfl, rfl⟩
    · rw [Finmap.lookup_insert_of_ne _ ne] at hlookup'
      exact h.fits id' info' req' hlookup' mem
    · rw [Finmap.lookup_insert, Option.some.injEq] at hlookup'
      rw [← hlookup']
      exact hnew
  · rcases hold mem with ⟨mem, _⟩ | ⟨rfl, rfl⟩
    · exact h.disciplined id' req' mem
    · exact hnew.disciplined

end

end InboundsFit

/-! ## Whole runs -/

/-- The invariant of a connection. The other stages do not touch what it is about. -/
def Connection.Fits (c : Connection Id R) : Prop :=
  InboundsFit c.inboundSubstreams c.written c.accepted c.currentInboundSubstreamId

variable {c : Connection Id R} {env : PollEnv R} {id : SubstreamId}

lemma ready_fits {α : Type} {event : ConnectionHandlerEvent Id R} :
    Keeps Connection.Fits (ready event : HandlerM Id R α) :=
  fun _ h => h

lemma panic_fits {α : Type} {reason : HandlerPanic} :
    Keeps Connection.Fits (panic reason : HandlerM Id R α) :=
  fun _ h => h

/-! ### Inbound stages -/

lemma expireInbound_fits : Keeps Connection.Fits (expireInbound id : HandlerM Id R Unit) := by
  rw [keeps_iff]
  intro c h
  unfold expireInbound
  rw [wp_bind, wp_get]
  split
  case isFalse => exact h
  case isTrue =>
    rw [wp_bind, wp_modify]
    split
    case h_1 => exact h
    case h_2 info hlookup =>
      rw [wp_modify]
      exact InboundsFit.update h hlookup fun _ _ hfits => hfits

lemma driveInboundAt_fits :
    Keeps Connection.Fits (driveInboundAt env id : HandlerM Id R (List SubstreamId)) := by
  rw [keeps_iff]
  intro c h
  unfold driveInboundAt
  rw [wp_bind, wp_get]
  split
  case h_1 => exact h
  case h_2 info hlookup =>
    split
    case h_1 => exact h
    case h_2 d e =>
      split
      case isTrue =>
        rw [wp_bind, wp_modify, wp_pure]
        exact InboundsFit.write h hlookup fun _ hfits => driveInbound_fits hfits e
      case isFalse => exact h

lemma removeInbound_fits : Keeps Connection.Fits (removeInbound id : HandlerM Id R Unit) :=
  Keeps.modify fun _ h => InboundsFit.erase h

/-! ### Other stages -/

lemma pollEventsOut_fits : Keeps Connection.Fits (pollEventsOut : HandlerM Id R Unit) := by
  unfold pollEventsOut
  refine Keeps.bind Keeps.get fun c => ?_
  split <;> exact fun _ h => h

lemma pollShutdown_fits : Keeps Connection.Fits (pollShutdown env : HandlerM Id R Unit) := by
  unfold pollShutdown
  refine Keeps.bind Keeps.get fun c => ?_
  split <;> exact fun _ h => h

lemma expireOutbound_fits : Keeps Connection.Fits (expireOutbound id : HandlerM Id R Unit) := by
  unfold expireOutbound
  refine Keeps.bind Keeps.get fun c => ?_
  split
  case isFalse => exact Keeps.pure
  case isTrue =>
    refine Keeps.bind (Keeps.modify fun _ h => h) fun _ => ?_
    split <;> exact fun _ h => h

section

variable {info : OutboundInfo Id} {request : RPCRequest}

lemma removeOutbound_fits {key : SubstreamId} :
    Keeps Connection.Fits (removeOutbound id key : HandlerM Id R Unit) := by
  unfold removeOutbound
  refine Keeps.bind Keeps.get fun c => ?_
  split <;> exact fun _ h => h

lemma resetOutboundTimer_fits {key : SubstreamId} :
    Keeps Connection.Fits (resetOutboundTimer key : HandlerM Id R Unit) := by
  unfold resetOutboundTimer
  refine Keeps.bind Keeps.get fun c => ?_
  split <;> exact fun _ h => h

lemma setOutbound_fits : Keeps Connection.Fits (setOutbound id info : HandlerM Id R Unit) :=
  Keeps.modify fun _ h => h

lemma onStreamClosed_fits :
    Keeps Connection.Fits (onStreamClosed id info request : HandlerM Id R Unit) := by
  unfold onStreamClosed
  refine Keeps.bind removeOutbound_fits fun _ => ?_
  split
  · split
    · exact ready_fits
    · exact panic_fits
  · exact ready_fits

lemma onResponse_fits {response : RPCCodedResponse R} :
    Keeps Connection.Fits (onResponse id info request response : HandlerM Id R Unit) := by
  unfold onResponse
  split
  · dsimp only
    split
    · exact Keeps.bind setOutbound_fits fun _ => ready_fits
    · refine Keeps.bind setOutbound_fits fun _ => ?_
      exact Keeps.bind resetOutboundTimer_fits fun _ => ready_fits
  · exact Keeps.bind setOutbound_fits fun _ => ready_fits

/-- The outbound side leaves the inbound one. -/
lemma driveOutbound_fits : Keeps Connection.Fits (driveOutbound env id : HandlerM Id R Unit) := by
  unfold driveOutbound
  refine Keeps.bind Keeps.get fun c => ?_
  split
  case h_1 => exact panic_fits
  case h_2 info _ =>
    split
    case h_1 request _ =>
      split
      case isTrue => exact Keeps.modify fun _ h => h
      case isFalse =>
        split
        case h_1 => exact Keeps.pure
        case h_2 => exact onStreamClosed_fits
        case h_3 => exact onResponse_fits
        case h_4 => exact Keeps.bind removeOutbound_fits fun _ => ready_fits
    case h_2 =>
      split
      case isTrue =>
        refine Keeps.bind removeOutbound_fits fun _ => ?_
        split
        · exact ready_fits
        · exact Keeps.pure
      case isFalse => exact Keeps.pure
    case h_3 => exact panic_fits

end

lemma establishOutbound_fits : Keeps Connection.Fits (establishOutbound : HandlerM Id R Unit) := by
  unfold establishOutbound
  refine Keeps.bind Keeps.get fun c => ?_
  split
  case h_1 => exact Keeps.pure
  case h_2 => split <;> exact fun _ h => h

lemma poll_fits : Keeps Connection.Fits (poll env : HandlerM Id R Unit) := by
  apply poll_keeps
  case close => exact fun _ _ h => h
  case eventsOut => exact pollEventsOut_fits
  case shutdown => exact pollShutdown_fits
  case expireInbound => exact fun _ => expireInbound_fits
  case expireOutbound => exact fun _ => expireOutbound_fits
  case driveInbound => exact fun _ => driveInboundAt_fits
  case removeInbound => exact fun _ => removeInbound_fits
  case driveOutbound => exact fun _ => driveOutbound_fits
  case establish => exact establishOutbound_fits

/-! ### The other calls -/

variable {goodbyeReason : Option (Id × Nat)}

lemma shutdown_fits (h : c.Fits) :
    (shutdown goodbyeReason c).Fits := by
  unfold shutdown
  split <;> exact h

lemma sendRequest_fits {reqId : Id} {req : RPCRequest} (h : c.Fits) :
    (sendRequest reqId req c).Fits := by
  unfold sendRequest
  split <;> exact h

lemma sendResponse_fits {response : RPCCodedResponse R} (h : c.Fits) :
    (sendResponse id response c).Fits := by
  unfold sendResponse
  split
  case h_1 => exact h
  case h_2 info hlookup =>
    dsimp only
    split
    case isTrue => exact h
    case isFalse => exact InboundsFit.update h hlookup fun _ _ hfits => hfits

lemma shutdown_inbound :
    (shutdown goodbyeReason c).inboundSubstreams = c.inboundSubstreams ∧
      (shutdown goodbyeReason c).written = c.written ∧
      (shutdown goodbyeReason c).accepted = c.accepted := by
  unfold shutdown
  split <;> exact ⟨rfl, rfl, rfl⟩

lemma onFullyNegotiatedInbound_fits {req : RPCRequest} (h : c.Fits) :
    (onFullyNegotiatedInbound req c).Fits := by
  unfold onFullyNegotiatedInbound
  split
  case isFalse => exact h
  case isTrue =>
    dsimp only
    split
    case isTrue => exact shutdown_fits h
    case isFalse =>
      unfold Connection.Fits
      dsimp only
      split
      · rw [shutdown_inbound.1, shutdown_inbound.2.1, shutdown_inbound.2.2]
        split
        case isTrue pos => exact InboundsFit.accept h pos
        case isFalse => exact InboundsFit.skip h
      · split
        case isTrue pos => exact InboundsFit.accept h pos
        case isFalse => exact InboundsFit.skip h

lemma releaseDial_fits : Keeps Connection.Fits (releaseDial : HandlerM Id R Unit) := by
  unfold releaseDial
  refine Keeps.bind Keeps.get fun c => ?_
  split <;> exact fun _ h => h

section

variable [DecidableEq Id] {reqId : Id} {req : RPCRequest}

lemma onFullyNegotiatedOutbound_fits :
    Keeps Connection.Fits (onFullyNegotiatedOutbound reqId req : HandlerM Id R Unit) := by
  refine Keeps.bind (Keeps.modify fun _ h => h) fun _ => ?_
  refine Keeps.bind releaseDial_fits fun _ => ?_
  refine Keeps.bind (Keeps.modify fun _ h => h) fun _ => ?_
  refine Keeps.bind (Keeps.modify fun c h => ?_) fun _ => Keeps.modify fun c h => ?_
  · unfold reportDeactivated
    split <;> exact h
  · unfold storeOutbound
    split <;> exact h

lemma onDialUpgradeError_fits {error : StreamUpgradeError} :
    Keeps Connection.Fits (onDialUpgradeError reqId req error : HandlerM Id R Unit) := by
  refine Keeps.bind (Keeps.modify fun _ h => h) fun _ => ?_
  refine Keeps.bind Keeps.get fun c => ?_
  split
  · exact Keeps.modify fun c h => sendRequest_fits h
  · exact Keeps.bind releaseDial_fits fun _ => Keeps.modify fun _ h => h

lemma ConnectionEvent.run_fits {event : ConnectionEvent Id R} :
    Keeps Connection.Fits event.run := by
  cases event with
  | request id req => exact Keeps.modify fun _ h => sendRequest_fits h
  | response id message => exact Keeps.modify fun _ h => sendResponse_fits h
  | shutdown id reason => exact Keeps.modify fun _ h => shutdown_fits h
  | fullyNegotiatedInbound req => exact Keeps.modify fun _ h => onFullyNegotiatedInbound_fits h
  | fullyNegotiatedOutbound id req => exact onFullyNegotiatedOutbound_fits
  | dialUpgradeError id req error => exact onDialUpgradeError_fits
  | poll env => exact poll_fits

lemma ConnectionRun.fits (run : ConnectionRun c) : c.Fits := by
  refine run.invariant (I := Connection.Fits) ⟨?_, ?_, ?_, ?_, ?_⟩ fun c event h _ => ?_
  · exact fun id mem => absurd mem Finmap.notMem_empty
  · exact fun p mem => absurd mem List.not_mem_nil
  · exact fun p mem => absurd mem List.not_mem_nil
  · intro id info req hlookup
    cases hlookup
  · exact fun id req mem => absurd mem List.not_mem_nil
  · unfold ConnectionEvent.apply
    split
    · exact h
    · exact ConnectionEvent.run_fits c h

end

end

/-- In every run no inbound substream is found, or left, in its temporary state. To the substream of
each request at most as many chunks are written as it expects, and nothing is written after an
error, after the end of the stream or after the last chunk. -/
theorem inbound_disciplined {Id R : Type} [DecidableEq Id] {c : Connection Id R}
    (run : ConnectionRun c) :
    c.panicked = none ∧
      (∀ id info, c.inboundSubstreams.lookup id = some info → info.state ≠ .poisoned) ∧
      ∀ id req, (id, req) ∈ c.accepted →
        Disciplined req.expectedResponses (writtenTo c.written id) := by
  refine ⟨run.sound.alive, fun id info hlookup => ?_, run.fits.disciplined⟩
  exact (run.sound.inbound id info hlookup List.not_mem_nil).1

/-- A poll that drives the first inbound substream, which takes everything. -/
def PollEnv.writable : PollEnv Nat :=
  { PollEnv.quiet with
    inboundOrder := [0]
    sink := fun _ => List.replicate 3 ⟨some (.ok ()), some (.ok ()), some (.ok ())⟩ }

lemma PollEnv.writable_visits {c : Connection Nat Nat} (inbound : c.inboundSubstreams.keys = {0})
    (outbound : c.outboundSubstreams = ∅) : PollEnv.writable.Visits c where
  inboundNodup := List.nodup_singleton 0
  inbound id := by
    rw [← Finmap.mem_keys, inbound, Finset.mem_singleton]
    exact List.mem_singleton
  outboundNodup := List.nodup_nil
  outbound id := by simp [writable, quiet, outbound, Finmap.notMem_empty]

/-- Three responses to a request for two. -/
def Connection.answered : Connection Nat Nat :=
  Connection.toy [.fullyNegotiatedInbound (.blocksByRange ⟨0, 2⟩), .poll .writable,
    .response 0 (.success 1), .response 0 (.success 2), .response 0 (.success 3), .poll .writable]

/-- Only two of them are written. -/
theorem inbound_disciplined_two :
    Connection.answered.written = [(0, .success 1), (0, .success 2)] ∧
      Disciplined 2 (writtenTo Connection.answered.written 0) := by
  have accepted : ConnectionRun (Connection.toy
      [.fullyNegotiatedInbound (.blocksByRange ⟨0, 2⟩)]) :=
    .snoc .refl (ConnectionEvent.fullyNegotiatedInbound (.blocksByRange ⟨0, 2⟩)) trivial
  have reported := accepted.snoc (.poll .writable) (PollEnv.writable_visits (by decide) rfl)
  have queued := ((reported.snoc (.response 0 (.success 1)) trivial).snoc
    (.response 0 (.success 2)) trivial).snoc (.response 0 (.success 3)) trivial
  have run : ConnectionRun Connection.answered :=
    queued.snoc (.poll .writable) (PollEnv.writable_visits (by decide) rfl)
  exact ⟨by decide, (inbound_disciplined run).2.2 0 (.blocksByRange ⟨0, 2⟩) (by decide)⟩

end Alys.Rpc
