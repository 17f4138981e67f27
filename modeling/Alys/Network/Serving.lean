import Alys.Basic.Types
import Alys.Lib.Fair
import Mathlib.Logic.Function.Basic

/-!
# Serving blocks to a peer

Model of how a `BlocksByRange` request is answered: the loop of `listen_for_rpc_requests` in
`app/src/chain.rs`, `Client::respond_rpc`, and the handling of commands by `NetworkBackend::run` in
`app/src/network/mod.rs`. The responder and the backend are two tasks. They are connected by a queue
of commands, into which other tasks put commands too, and each command carries the sender of a
one-shot channel for the answer. The swarm's own events do not touch any of this.

The command channel has room for 32 commands, and a task that finds it full waits for its turn; the
queue here includes the commands of such tasks, since a turn comes in the order of arrival.

For every command but one the backend sends an answer. For `RespondRpc` it drops the sender, so that
the responder takes every response for a failed one and stops after the first block.
-/

namespace Alys
open Lib

/-! ## The tasks -/

/-- The inbound substream of a request. -/
structure Substream where
  peerId : Nat
  connectionId : Nat
  substreamId : Nat

/-- `RPCCodedResponse`, with the variants that a responder sends. -/
inductive RPCCodedResponse where
  | success (block : SignedConsensusBlock)
  | streamTermination

/-- How a call of the network's client can fail. -/
inductive NetworkError where
  /-- the sender of the one-shot channel was dropped -/
  | recvError
  /-- what the swarm answered -/
  | swarmError

/-- A one-shot channel, as its receiver sees it. -/
inductive Oneshot where
  | pending
  | sent (result : Except NetworkError Unit)
  | dropped

/-- `receiver.await`, once it is over. -/
def Oneshot.received : Oneshot → Option (Except NetworkError Unit)
  | .pending => none
  | .sent result => some result
  | .dropped => some (.error .recvError)

/-- `FrontToBackCommand`, each with the one-shot channel for its answer; what the others carry is
not needed. -/
inductive FrontToBackCommand where
  | publish (response : Nat)
  | sendRpc (response : Nat)
  | respondRpc (substream : Substream) (payload : RPCCodedResponse) (response : Nat)
  | dial (response : Nat)
  | subscribeEvents (response : Nat)
  | subscribeRpcEvents (response : Nat)
  | subscribePeers (response : Nat)

/-- Where the responder stands in the loop of `listen_for_rpc_requests`. -/
inductive Responder where
  /-- at the head of the loop over the blocks -/
  | serving (blocks : List SignedConsensusBlock)
  /-- waiting for the answer to a block -/
  | awaitingBlock (blocks : List SignedConsensusBlock) (response : Nat)
  /-- after the loop -/
  | terminating
  | awaitingTermination (response : Nat)
  /-- waiting for the next request -/
  | listening

/-- The responder, the queue of commands and the one-shot channels. -/
structure Serving where
  responder : Responder
  /-- the commands that were sent, the oldest first -/
  queue : List FrontToBackCommand
  oneshots : Nat → Oneshot
  /-- the next one-shot channel -/
  fresh : Nat
  /-- what the RPC layer was handed, the latest last -/
  handed : List (Substream × RPCCodedResponse)

namespace Serving

/-- Sends a command with a new one-shot channel. -/
def send (command : Nat → FrontToBackCommand) (s : Serving) : Serving :=
  { s with
    queue := s.queue ++ [command s.fresh]
    oneshots := Function.update s.oneshots s.fresh .pending
    fresh := s.fresh + 1 }

/-- `Client::respond_rpc` up to the await of the answer. -/
def respondRpc (substream : Substream) (payload : RPCCodedResponse) (next : Nat → Responder)
    (s : Serving) : Serving :=
  { s.send (.respondRpc substream payload) with responder := next s.fresh }

/-- The next step of `listen_for_rpc_requests` with a request. -/
def respond (substream : Substream) (s : Serving) : Serving :=
  match s.responder with
  | .serving [] => { s with responder := .terminating }
  | .serving (block :: blocks) => s.respondRpc substream (.success block) (.awaitingBlock blocks)
  | .awaitingBlock blocks response =>
    match (s.oneshots response).received with
    | none => s
    | some (.ok ()) => { s with responder := .serving blocks }
    -- the peer is taken to have disconnected
    | some (.error _) => { s with responder := .terminating }
  | .terminating => s.respondRpc substream .streamTermination .awaitingTermination
  | .awaitingTermination response =>
    match (s.oneshots response).received with
    | none => s
    | some _ => { s with responder := .listening }
  | .listening => s

/-- Answers a command. -/
def answer (response : Nat) (result : Oneshot) (s : Serving) : Serving :=
  { s with oneshots := Function.update s.oneshots response result }

/-- The handling of the oldest command by `NetworkBackend::run`, with what the swarm says to it. -/
def handle (result : Except NetworkError Unit) (s : Serving) : Serving :=
  match s.queue with
  | [] => s
  | command :: queue =>
    let s := { s with queue }
    match command with
    | .publish response => s.answer response (.sent result)
    | .dial response => s.answer response (.sent result)
    | .subscribeEvents response => s.answer response (.sent (.ok ()))
    | .subscribeRpcEvents response => s.answer response (.sent (.ok ()))
    | .subscribePeers response => s.answer response (.sent (.ok ()))
    | .sendRpc response => s.answer response (.sent (.ok ()))
    | .respondRpc substream payload response =>
      { s with handed := s.handed ++ [(substream, payload)] }.answer response .dropped

end Serving

/-- The calls of the network's client that other tasks make. -/
inductive ClientCall where
  | send | sendRpc | dial | subscribeEvents | subscribeRpcEvents | subscribePeers

/-- The command of a call. -/
def ClientCall.command : ClientCall → Nat → FrontToBackCommand
  | .send => .publish
  | .sendRpc => .sendRpc
  | .dial => .dial
  | .subscribeEvents => .subscribeEvents
  | .subscribeRpcEvents => .subscribeRpcEvents
  | .subscribePeers => .subscribePeers

/-- What happens next. -/
inductive ServingEvent where
  | responder
  | backend (result : Except NetworkError Unit)
  | client (call : ClientCall)

/-- The state after an event. -/
def ServingEvent.apply (substream : Substream) : ServingEvent → Serving → Serving
  | .responder, s => s.respond substream
  | .backend result, s => s.handle result
  | .client call, s => s.send call.command

/-! ## What is under way -/

/-- The one-shot channel of a command. -/
def FrontToBackCommand.response : FrontToBackCommand → Nat
  | .publish response => response
  | .sendRpc response => response
  | .respondRpc _ _ response => response
  | .dial response => response
  | .subscribeEvents response => response
  | .subscribeRpcEvents response => response
  | .subscribePeers response => response

/-- A command that does not come from the responder. -/
def FrontToBackCommand.Foreign (command : FrontToBackCommand) : Prop :=
  ∃ call : ClientCall, command = call.command command.response

namespace Serving

variable {substream : Substream} {s : Serving} {command : FrontToBackCommand}
  {pc : Responder} {wait : Nat → Responder} {payload : RPCCodedResponse}
  {handed : List (Substream × RPCCodedResponse)} {n id : Nat}

/-- A queued command of another task: its channel is an older one, and not the given one. -/
def Other (s : Serving) (avoid : Nat → Prop) (command : FrontToBackCommand) : Prop :=
  command.Foreign ∧ command.response < s.fresh ∧ ¬ avoid command.response

/-- The responder stands at `pc` and has no command under way. -/
structure At (pc : Responder) (handed : List (Substream × RPCCodedResponse)) (s : Serving) :
    Prop where
  responder : s.responder = pc
  queue : ∀ command ∈ s.queue, s.Other (fun _ => False) command
  handed : s.handed = handed

/-- The command of the responder is the `n`-th in the queue, and it waits for the answer. -/
structure Sent (substream : Substream) (wait : Nat → Responder) (payload : RPCCodedResponse)
    (handed : List (Substream × RPCCodedResponse)) (n : Nat) (s : Serving) : Prop where
  sent : ∃ id before after, s.responder = wait id ∧ id < s.fresh ∧ s.oneshots id = .pending ∧
    s.queue = before ++ .respondRpc substream payload id :: after ∧ before.length = n ∧
    ∀ command ∈ before ++ after, s.Other (· = id) command
  handed : s.handed = handed

/-- The responder waits for an answer that will not come. -/
structure Answered (wait : Nat → Responder) (handed : List (Substream × RPCCodedResponse))
    (s : Serving) : Prop where
  answered : ∃ id, s.responder = wait id ∧ id < s.fresh ∧ s.oneshots id = .dropped ∧
    ∀ command ∈ s.queue, s.Other (· = id) command
  handed : s.handed = handed

variable {queue : List FrontToBackCommand}

/-- A command of another task is answered; nothing else changes. -/
lemma handle_foreign (result : Except NetworkError Unit) (hqueue : s.queue = command :: queue)
    (foreign : command.Foreign) :
    ∃ r, s.handle result = { s with queue }.answer command.response (.sent r) := by
  obtain ⟨call, e⟩ := foreign
  rw [e] at hqueue
  rw [handle, hqueue]
  cases call <;> exact ⟨_, rfl⟩

lemma foreign_command (call : ClientCall) (id : Nat) :
    (call.command id).Foreign ∧ (call.command id).response = id := by
  cases call
  case send => exact ⟨⟨.send, rfl⟩, rfl⟩
  case sendRpc => exact ⟨⟨.sendRpc, rfl⟩, rfl⟩
  case dial => exact ⟨⟨.dial, rfl⟩, rfl⟩
  case subscribeEvents => exact ⟨⟨.subscribeEvents, rfl⟩, rfl⟩
  case subscribeRpcEvents => exact ⟨⟨.subscribeRpcEvents, rfl⟩, rfl⟩
  case subscribePeers => exact ⟨⟨.subscribePeers, rfl⟩, rfl⟩

/-- After another task has sent a command, the queue holds commands of other tasks as before. -/
lemma other_send {avoid : Nat → Prop} {call : ClientCall}
    (h : ∀ command ∈ queue, s.Other avoid command) (hfresh : ¬ avoid s.fresh) :
    ∀ command ∈ queue ++ [call.command s.fresh], (s.send call.command).Other avoid command := by
  intro command mem
  obtain mem | mem := List.mem_append.mp mem
  · obtain ⟨foreign, lt, hne⟩ := h command mem
    exact ⟨foreign, Nat.lt_succ_of_lt lt, hne⟩
  · obtain ⟨foreign, hresponse⟩ := foreign_command call s.fresh
    rw [List.mem_singleton.mp mem]
    refine ⟨foreign, ?_, ?_⟩
    · rw [hresponse]
      exact Nat.lt_succ_self _
    · rw [hresponse]
      exact hfresh

namespace At

lemma send {call : ClientCall} (h : At pc handed s) : At pc handed (s.send call.command) :=
  ⟨h.responder, other_send h.queue not_false, h.handed⟩

lemma handle {result : Except NetworkError Unit} (h : At pc handed s) :
    At pc handed (s.handle result) := by
  cases hq : s.queue with
  | nil =>
    rw [Serving.handle, hq]
    exact h
  | cons command queue =>
    have hcommand := h.queue command (by rw [hq]; exact List.mem_cons_self)
    obtain ⟨r, e⟩ := handle_foreign result hq hcommand.1
    rw [e]
    refine ⟨h.responder, fun c mem => h.queue c ?_, h.handed⟩
    rw [hq]
    exact List.mem_cons_of_mem command mem

/-- The responder sends a response. -/
lemma respondRpc (h : At pc handed s) :
    Sent substream wait payload handed s.queue.length (s.respondRpc substream payload wait) where
  sent := by
    refine ⟨s.fresh, s.queue, [], rfl, Nat.lt_succ_self _, Function.update_self .., rfl, rfl, ?_⟩
    intro command mem
    rw [List.append_nil] at mem
    obtain ⟨foreign, lt, _⟩ := h.queue command mem
    exact ⟨foreign, Nat.lt_succ_of_lt lt, Nat.ne_of_lt lt⟩
  handed := h.handed

end At

namespace Sent

lemma send {call : ClientCall} (h : Sent substream wait payload handed n s) :
    Sent substream wait payload handed n (s.send call.command) := by
  obtain ⟨⟨id, before, after, hresponder, lt, hpending, hqueue, hn, others⟩, hhanded⟩ := h
  refine ⟨⟨id, before, after ++ [call.command s.fresh], hresponder, Nat.lt_succ_of_lt lt, ?_, ?_,
    hn, ?_⟩, hhanded⟩
  · exact (Function.update_of_ne (Nat.ne_of_lt lt) ..).trans hpending
  · rw [Serving.send, hqueue, List.append_assoc, List.cons_append]
  · rw [← List.append_assoc]
    exact other_send others (Nat.ne_of_gt lt)

variable {result : Except NetworkError Unit}

/-- The backend comes closer to the command. -/
lemma handle_succ (h : Sent substream wait payload handed (n + 1) s) :
    Sent substream wait payload handed n (s.handle result) := by
  obtain ⟨⟨id, before, after, hresponder, lt, hpending, hqueue, hn, others⟩, hhanded⟩ := h
  cases before with
  | nil => cases hn
  | cons command before =>
    obtain ⟨foreign, _, hne⟩ := others command List.mem_cons_self
    obtain ⟨r, e⟩ := handle_foreign result hqueue foreign
    rw [e]
    refine ⟨⟨id, before, after, hresponder, lt, ?_, rfl, Nat.succ.inj hn, ?_⟩, hhanded⟩
    · exact (Function.update_of_ne (Ne.symm hne) ..).trans hpending
    · exact fun c mem => others c (List.mem_cons_of_mem command mem)

/-- The backend hands the response to the RPC layer and drops the sender. -/
lemma handle_zero (h : Sent substream wait payload handed 0 s) :
    Answered wait (handed ++ [(substream, payload)]) (s.handle result) := by
  obtain ⟨⟨id, before, after, hresponder, lt, hpending, hqueue, hn, others⟩, hhanded⟩ := h
  rw [List.length_eq_zero_iff] at hn
  subst hn
  rw [Serving.handle, hqueue]
  refine ⟨⟨id, hresponder, lt, Function.update_self .., others⟩, ?_⟩
  rw [← hhanded]
  rfl

end Sent

namespace Answered

lemma send {call : ClientCall} (h : Answered wait handed s) :
    Answered wait handed (s.send call.command) := by
  obtain ⟨⟨id, hresponder, lt, hdropped, others⟩, hhanded⟩ := h
  refine ⟨⟨id, hresponder, Nat.lt_succ_of_lt lt, ?_, other_send others (Nat.ne_of_gt lt)⟩, hhanded⟩
  exact (Function.update_of_ne (Nat.ne_of_lt lt) ..).trans hdropped

lemma handle {result : Except NetworkError Unit} (h : Answered wait handed s) :
    Answered wait handed (s.handle result) := by
  cases hq : s.queue with
  | nil =>
    rw [Serving.handle, hq]
    exact h
  | cons command queue =>
    obtain ⟨⟨id, hresponder, lt, hdropped, others⟩, hhanded⟩ := h
    rw [hq] at others
    obtain ⟨foreign, _, hne⟩ := others command List.mem_cons_self
    obtain ⟨r, e⟩ := handle_foreign result hq foreign
    rw [e]
    refine ⟨⟨id, hresponder, lt, ?_, fun c mem => others c (List.mem_cons_of_mem command mem)⟩,
      hhanded⟩
    exact (Function.update_of_ne (Ne.symm hne) ..).trans hdropped

end Answered

end Serving

/-! ## Fair behaviors -/

/-- A behavior in which the responder and the backend are scheduled again and again. -/
structure FairServing (substream : Substream) extends Behavior (ServingEvent.apply substream) where
  responder : toBehavior.Often (· = .responder)
  backend : toBehavior.Often fun event => ∃ result, event = .backend result

namespace FairServing

open Serving

variable {substream : Substream} {B : FairServing substream} {pc pc' : Responder}
  {wait : Nat → Responder} {payload : RPCCodedResponse}
  {handed : List (Substream × RPCCodedResponse)} {P Q : Serving → Prop}

/-- What only the responder ends. -/
lemma leadsTo_respond (client : ∀ s call, P s → P (s.send (ClientCall.command call)))
    (backend : ∀ s result, P s → P (s.handle result)) (hit : ∀ s, P s → Q (s.respond substream)) :
    B.LeadsTo P Q := by
  refine .of_often B.responder (fun event s other h => ?_) fun event s e h => ?_
  · cases event with
    | responder => exact absurd rfl other
    | backend result => exact backend s result h
    | client call => exact client s call h
  · rw [e]
    exact hit s h

/-- What only the backend ends. -/
lemma leadsTo_handle (client : ∀ s call, P s → P (s.send (ClientCall.command call)))
    (responder : ∀ s, P s → P (s.respond substream)) (hit : ∀ s result, P s → Q (s.handle result)) :
    B.LeadsTo P Q := by
  refine .of_often B.backend (fun event s other h => ?_) fun event s e h => ?_
  · cases event with
    | responder => exact responder s h
    | backend result => exact absurd ⟨result, rfl⟩ other
    | client call => exact client s call h
  · obtain ⟨result, rfl⟩ := e
    exact hit s result h

/-- An exchange with the backend: the responder sends a response at `pc`, waits at `wait` and goes
on at `pc'` when the sender of the answer is dropped. -/
structure Exchange (substream : Substream) (pc : Responder) (payload : RPCCodedResponse)
    (wait : Nat → Responder) (pc' : Responder) : Prop where
  sends : ∀ s : Serving, s.responder = pc →
    s.respond substream = s.respondRpc substream payload wait
  waits : ∀ (s : Serving) id, s.responder = wait id → s.oneshots id = .pending →
    s.respond substream = s
  goesOn : ∀ (s : Serving) id, s.responder = wait id → s.oneshots id = .dropped →
    s.respond substream = { s with responder := pc' }

lemma exchange_block {block : SignedConsensusBlock} {blocks : List SignedConsensusBlock} :
    Exchange substream (.serving (block :: blocks)) (.success block) (.awaitingBlock blocks)
      .terminating where
  sends s h := by rw [Serving.respond, h]
  waits s id h hpending := by
    rw [Serving.respond, h]
    simp only [hpending, Oneshot.received]
  goesOn s id h hdropped := by
    rw [Serving.respond, h]
    simp only [hdropped, Oneshot.received]

lemma exchange_termination :
    Exchange substream .terminating .streamTermination .awaitingTermination .listening where
  sends s h := by rw [Serving.respond, h]
  waits s id h hpending := by
    rw [Serving.respond, h]
    simp only [hpending, Oneshot.received]
  goesOn s id h hdropped := by
    rw [Serving.respond, h]
    simp only [hdropped, Oneshot.received]

namespace Exchange

/-- The response is handed to the RPC layer, and the responder is left without an answer. -/
lemma leadsTo_answered (h : Exchange substream pc payload wait pc') :
    B.LeadsTo (At pc handed) (Answered wait (handed ++ [(substream, payload)])) := by
  have sends : B.LeadsTo (At pc handed) fun s => ∃ n, Sent substream wait payload handed n s := by
    refine leadsTo_respond (fun s call hs => hs.send) (fun s result hs => hs.handle) fun s hs => ?_
    rw [h.sends s hs.responder]
    exact ⟨s.queue.length, hs.respondRpc⟩
  have waits : ∀ n s, Sent substream wait payload handed n s →
      Sent substream wait payload handed n (s.respond substream) := by
    intro n s hs
    obtain ⟨id, _, _, hresponder, _, hpending, _⟩ := hs.sent
    rw [h.waits s id hresponder hpending]
    exact hs
  -- the queue is handled from the front, and other tasks append to it
  have arrives : ∀ n, B.LeadsTo (Sent substream wait payload handed n)
      (Answered wait (handed ++ [(substream, payload)])) := by
    refine .countdown ?_ fun n => ?_
    · exact leadsTo_handle (fun s call hs => hs.send) (waits 0) fun s result hs => hs.handle_zero
    · exact leadsTo_handle (fun s call hs => hs.send) (waits (n + 1))
        fun s result hs => hs.handle_succ
  intro k hk
  obtain ⟨m, hm, n, hn⟩ := sends k hk
  obtain ⟨l, hl, hanswered⟩ := arrives n m hn
  exact ⟨l, Nat.le_trans hm hl, hanswered⟩

/-- The response is handed to the RPC layer, and the responder goes on. -/
lemma leadsTo (h : Exchange substream pc payload wait pc') :
    B.LeadsTo (At pc handed) (At pc' (handed ++ [(substream, payload)])) := by
  refine h.leadsTo_answered.trans ?_
  refine leadsTo_respond (fun s call hs => hs.send) (fun s result hs => hs.handle) fun s hs => ?_
  obtain ⟨id, hresponder, _, hdropped, others⟩ := hs.answered
  rw [h.goesOn s id hresponder hdropped]
  refine ⟨rfl, fun command mem => ?_, hs.handed⟩
  obtain ⟨foreign, lt, _⟩ := others command mem
  exact ⟨foreign, lt, not_false⟩

end Exchange

variable {blocks : List SignedConsensusBlock}

/-- Of the blocks only the first is handed over. -/
lemma serving_leadsTo :
    B.LeadsTo (At (.serving blocks) handed)
      (At .terminating (handed ++ (blocks.take 1).map fun b => (substream, .success b))) := by
  cases blocks with
  | nil =>
    refine leadsTo_respond (fun s call h => h.send) (fun s result h => h.handle) fun s h => ?_
    rw [Serving.respond, h.responder]
    refine ⟨rfl, h.queue, ?_⟩
    rw [h.handed]
    simp
  | cons block blocks => exact exchange_block.leadsTo

/-- What has been handed over once the responder is done, from then on. -/
lemma eventually_handed (start : At (.serving blocks) handed (B.state 0)) :
    ∃ n, ∀ m, n ≤ m → (B.state m).handed =
      handed ++ (blocks.take 1).map (fun b => (substream, .success b)) ++
        [(substream, .streamTermination)] := by
  obtain ⟨n, _, hn⟩ := (serving_leadsTo.trans exchange_termination.leadsTo) 0 start
  refine ⟨n, fun m hm => (B.stable hn (fun event s h => ?_) hm).handed⟩
  cases event with
  | responder =>
    show At _ _ (s.respond substream)
    rw [Serving.respond, h.responder]
    exact h
  | backend result => exact h.handle
  | client call => exact h.send

end FairServing

open Serving in
/-- In every behavior in which responder and backend keep running, the blocks of a request are
served completely, in order and with one termination, if and only if there is at most one of them.
-/
theorem serving_complete_iff {substream : Substream} {B : FairServing substream}
    {blocks : List SignedConsensusBlock} {handed : List (Substream × RPCCodedResponse)}
    (start : At (.serving blocks) handed (B.state 0)) :
    (∃ n, ∀ m, n ≤ m → (B.state m).handed =
      handed ++ blocks.map (fun b => (substream, .success b)) ++
        [(substream, .streamTermination)]) ↔ blocks.length ≤ 1 := by
  obtain ⟨n, hn⟩ := FairServing.eventually_handed start
  constructor
  · rintro ⟨k, hk⟩
    have hlength := congrArg List.length
      ((hn (max n k) (Nat.le_max_left ..)).symm.trans (hk (max n k) (Nat.le_max_right ..)))
    simp only [List.length_append, List.length_map, List.length_take] at hlength
    omega
  · intro h
    refine ⟨n, fun m hm => ?_⟩
    rw [hn m hm, List.take_of_length_le h]

/-! ## Closed instances -/

/-- A responder that has received a request, with an empty queue. -/
def Serving.toy (blocks : List SignedConsensusBlock) : Serving where
  responder := .serving blocks
  queue := []
  oneshots _ := .pending
  fresh := 0
  handed := []

/-- Responder and backend take turns. -/
def FairServing.toy (blocks : List SignedConsensusBlock) : FairServing ⟨0, 0, 0⟩ where
  toBehavior := .ofEvents _ (.toy blocks) fun n =>
    if n % 2 = 0 then .responder else .backend (.ok ())
  responder n := ⟨2 * n, by omega, if_pos (by omega)⟩
  backend n := ⟨2 * n + 1, by omega, .ok (), if_neg (by omega)⟩

lemma Serving.toy_at (blocks : List SignedConsensusBlock) :
    Serving.At (.serving blocks) [] ((FairServing.toy blocks).state 0) :=
  ⟨rfl, nofun, rfl⟩

/-- A single block is served. -/
theorem serving_complete_one_block :
    ∃ n, ∀ m, n ≤ m → ((FairServing.toy [.toy 1 0]).state m).handed =
      [(⟨0, 0, 0⟩, .success (.toy 1 0)), (⟨0, 0, 0⟩, .streamTermination)] :=
  (serving_complete_iff (Serving.toy_at _)).mpr (by decide)

/-- Of two blocks only the first is served. -/
theorem serving_complete_fails :
    ¬ ∀ (substream : Substream) (B : FairServing substream) (blocks : List SignedConsensusBlock),
      Serving.At (.serving blocks) [] (B.state 0) →
      ∃ n, ∀ m, n ≤ m → (B.state m).handed =
        blocks.map (fun b => (substream, .success b)) ++ [(substream, .streamTermination)] := by
  intro all
  obtain ⟨n, hn⟩ := all _ (.toy [.toy 1 0, .toy 2 0]) _ (Serving.toy_at _)
  obtain ⟨k, hk⟩ := FairServing.eventually_handed (Serving.toy_at [.toy 1 0, .toy 2 0])
  have hlength := congrArg List.length
    ((hn (max n k) (Nat.le_max_left ..)).symm.trans (hk (max n k) (Nat.le_max_right ..)))
  cases hlength

end Alys
