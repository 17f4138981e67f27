import Alys.Lib.Observe
import Alys.Lib.Ordered
import Alys.Lib.Run
import Alys.Network.Requests
import Mathlib.Algebra.Order.Group.Nat

/-!
# Connections

Model of `PeerReconnectInfo`, of `attempt_reconnections` and of how `NetworkBackend::run` in
`app/src/network/mod.rs` follows the connections of the swarm. The swarm says when a connection is
established or closed, and whether a dial can begin; how the dial ends is not known to the backend
other than by a new connection. Addresses are texts, and times are in milliseconds.

`dials` is not part of the backend: it records the dials of `attempt_reconnections`.
-/

namespace Alys
open Lib

/-! ## The code -/

/-- `RECONNECT_INTERVAL_SECS`. -/
def reconnectIntervalSecs : Nat := 5

/-- `RECONNECT_MAX_ATTEMPTS`. -/
def reconnectMaxAttempts : Nat := 12

structure PeerReconnectInfo where
  address : Text
  lastAttempt : Option Nat
  attemptCount : Nat
  deriving DecidableEq

namespace PeerReconnectInfo

def new (address : Text) : PeerReconnectInfo := ⟨address, none, 0⟩

/-- The `backoff_duration` after some attempts. -/
def backoff (attemptCount : Nat) : Nat := 1000 * 2 ^ min attemptCount 12

def shouldReconnect (now : Nat) (info : PeerReconnectInfo) : Bool :=
  match info.lastAttempt with
  | none => true
  | some last => backoff info.attemptCount ≤ now - last

def markAttempt (now : Nat) (info : PeerReconnectInfo) : PeerReconnectInfo :=
  { info with lastAttempt := some now, attemptCount := info.attemptCount + 1 }

def resetAttempts (info : PeerReconnectInfo) : PeerReconnectInfo :=
  { info with attemptCount := 0, lastAttempt := none }

end PeerReconnectInfo

/-- The part of `NetworkBackend` and of the variables of `run` that follows the connections. -/
structure Peering where
  peers : Finset PeerId
  peerAddresses : Map PeerId Text
  reconnectInfo : Map PeerId PeerReconnectInfo
  /-- what `peers_connected_tx` sent last -/
  sent : Option (Finset PeerId)
  /-- the connections of the swarm -/
  connections : PeerId → Nat
  now : Nat
  /-- the latest last -/
  dials : List (PeerId × Nat)

inductive PeerEvent where
  /-- time passes -/
  | tick (elapsed : Nat)
  /-- `reconnect_timer.tick`; `dial` says at which addresses a dial can begin -/
  | timer (dial : Text → Bool)
  | subscribePeers
  | discovered (list : List PeerId)
  | expired (list : List PeerId)
  | connectionEstablished (peerId : PeerId) (address : Text)
  /-- `keepAlive` says whether the cause is `KeepAliveTimeout` -/
  | connectionClosed (peerId : PeerId) (keepAlive : Bool)

/-- An event that is not about the connections of a peer. -/
def PeerEvent.Calm (p : PeerId) : PeerEvent → Prop
  | .connectionEstablished q _ => q ≠ p
  | .connectionClosed q _ => q ≠ p
  | _ => True

namespace Peering

/-- `spawn_network_handler`. -/
def new : Peering := ⟨∅, ∅, ∅, none, fun _ => 0, 0, []⟩

/-- The first loop of `attempt_reconnections`. -/
def collect (now : Nat) (acc : Map PeerId PeerReconnectInfo × List (PeerId × Text))
    (peerId : PeerId) : Map PeerId PeerReconnectInfo × List (PeerId × Text) :=
  match acc.1.lookup peerId with
  | some info =>
    if info.shouldReconnect now then
      (acc.1.insert peerId (info.markAttempt now), acc.2 ++ [(peerId, info.address)])
    else acc
  | none => acc

/-- The second loop: a dial that cannot begin ends the attempts when there were many. -/
def reconnect (dial : Text → Bool) (s : Peering) (e : PeerId × Text) : Peering :=
  let s := { s with dials := s.dials ++ [(e.1, s.now)] }
  if dial e.2 then s
  else
    match s.reconnectInfo.lookup e.1 with
    | some info =>
      if reconnectMaxAttempts < info.attemptCount then
        { s with
          reconnectInfo := s.reconnectInfo.erase e.1
          peerAddresses := s.peerAddresses.erase e.1 }
      else s
    | none => s

def attemptReconnections (dial : Text → Bool) (s : Peering) : Peering :=
  let (reconnectInfo, toReconnect) :=
    (ordered s.reconnectInfo.keys).foldl (collect s.now) (s.reconnectInfo, [])
  toReconnect.foldl (reconnect dial) { s with reconnectInfo }

/-- `peers_connected_tx.send(peers.clone())`. -/
def sendPeers (s : Peering) : Peering := { s with sent := some s.peers }

def discovered (s : Peering) (peerId : PeerId) : Peering :=
  sendPeers { s with peers := insert peerId s.peers }

/-- The peers that have expired stay in `peers`. -/
def expired (s : Peering) (_ : PeerId) : Peering := s.sendPeers

/-- `SwarmEvent::ConnectionEstablished`. The entry for reconnecting is reset and not removed. -/
def connectionEstablished (peerId : PeerId) (address : Text) (s : Peering) : Peering :=
  sendPeers { s with
    connections := Function.update s.connections peerId (s.connections peerId + 1)
    peers := insert peerId s.peers
    peerAddresses := s.peerAddresses.insert peerId address
    reconnectInfo :=
      match s.reconnectInfo.lookup peerId with
      | some info => s.reconnectInfo.insert peerId info.resetAttempts
      | none => s.reconnectInfo }

/-- The entry for reconnecting after the last connection was closed. -/
def schedule (peerId : PeerId) (keepAlive : Bool) (s : Peering) : Map PeerId PeerReconnectInfo :=
  match s.peerAddresses.lookup peerId with
  | some address =>
    if keepAlive then s.reconnectInfo else s.reconnectInfo.insert peerId (.new address)
  | none => s.reconnectInfo

/-- `SwarmEvent::ConnectionClosed`. -/
def connectionClosed (peerId : PeerId) (keepAlive : Bool) (s : Peering) : Peering :=
  match s.connections peerId with
  | 0 => s
  | numEstablished + 1 =>
    let s := { s with connections := Function.update s.connections peerId numEstablished }
    if numEstablished = 0 then
      sendPeers { s with
        peers := s.peers.erase peerId
        reconnectInfo := s.schedule peerId keepAlive }
    else s

/-- The backend after an event. -/
def step : PeerEvent → Peering → Peering
  | .tick elapsed, s => { s with now := s.now + elapsed }
  | .timer dial, s => s.attemptReconnections dial
  | .subscribePeers, s => s.sendPeers
  | .discovered list, s => list.foldl discovered s
  | .expired list, s => list.foldl expired s
  | .connectionEstablished peerId address, s => s.connectionEstablished peerId address
  | .connectionClosed peerId keepAlive, s => s.connectionClosed peerId keepAlive

/-! ## One peer -/

variable {s s' : Peering} {p : PeerId} {dial : Text → Bool}

/-- The times at which a peer was dialed. -/
def dialsTo (p : PeerId) (s : Peering) : List Nat := (s.dials.filter (·.1 = p)).map (·.2)

/-- What the timer reads and writes of a peer. -/
structure PeerView where
  now : Nat
  info : Option PeerReconnectInfo
  dials : List Nat

def view (p : PeerId) (s : Peering) : PeerView := ⟨s.now, s.reconnectInfo.lookup p, s.dialsTo p⟩

/-- The timer at one peer. -/
def PeerView.attempt (dial : Text → Bool) (v : PeerView) : PeerView :=
  match v.info with
  | some info =>
    if info.shouldReconnect v.now then
      { v with
        info :=
          if !dial info.address && reconnectMaxAttempts < info.attemptCount + 1 then none
          else some (info.markAttempt v.now)
        dials := v.dials ++ [v.now] }
    else v
  | none => v

lemma dialsTo_append {e : PeerId × Nat} :
    dialsTo p { s with dials := s.dials ++ [e] } =
      if e.1 = p then s.dialsTo p ++ [e.2] else s.dialsTo p := by
  rw [dialsTo, List.filter_append, List.map_append, List.filter_singleton]
  split <;> simp [dialsTo, *]

lemma view_reconnect_of_ne {e : PeerId × Text} (ne : e.1 ≠ p) :
    (s.reconnect dial e).view p = s.view p := by
  have hdials : dialsTo p { s with dials := s.dials ++ [(e.1, s.now)] } = s.dialsTo p := by
    rw [dialsTo_append, if_neg ne]
  unfold reconnect
  dsimp only
  split
  case isTrue => rw [view, hdials, view]
  case isFalse =>
    split
    case h_1 =>
      split
      case isTrue =>
        exact congrArg₂ (PeerView.mk s.now) (Finmap.lookup_erase_ne (Ne.symm ne)) hdials
      case isFalse => rw [view, hdials, view]
    case h_2 => rw [view, hdials, view]

/-- A dial at one peer. -/
def PeerView.redial (dial : Text → Bool) (v : PeerView) (e : PeerId × Text) : PeerView :=
  { v with
    info :=
      if dial e.2 then v.info
      else v.info.filter fun info => info.attemptCount ≤ reconnectMaxAttempts
    dials := v.dials ++ [v.now] }

/-- A dial of the peer itself. -/
lemma view_reconnect_self {e : PeerId × Text} (same : e.1 = p) :
    (s.reconnect dial e).view p = (s.view p).redial dial e := by
  have hdials : dialsTo p { s with dials := s.dials ++ [(e.1, s.now)] } =
      s.dialsTo p ++ [s.now] := by
    rw [dialsTo_append, if_pos same]
  subst same
  unfold reconnect
  dsimp only
  split
  case isTrue ok => rw [view, hdials, view, PeerView.redial, if_pos ok]
  case isFalse fails =>
    have hfilter (kept : Option PeerReconnectInfo) (h : kept = (s.reconnectInfo.lookup e.1).filter
        fun info => info.attemptCount ≤ reconnectMaxAttempts) :
        PeerView.mk s.now kept (s.dialsTo e.1 ++ [s.now]) = (s.view e.1).redial dial e := by
      rw [PeerView.redial, if_neg fails, h]
      rfl
    rw [← hdials] at hfilter
    cases hinfo : s.reconnectInfo.lookup e.1 with
    | none => exact hfilter _ (by rw [hinfo, Option.filter_none])
    | some info =>
      dsimp only
      split
      case isTrue many =>
        refine hfilter _ ?_
        rw [hinfo, Option.filter_some, if_neg (by simpa using many)]
        exact Finmap.lookup_erase e.1 s.reconnectInfo
      case isFalse few =>
        refine hfilter _ ?_
        rw [hinfo, Option.filter_some, if_pos (by simpa using few)]

/-- What the first loop has of a peer. -/
def collected (p : PeerId) (acc : Map PeerId PeerReconnectInfo × List (PeerId × Text)) :
    Option PeerReconnectInfo × List (PeerId × Text) :=
  (acc.1.lookup p, acc.2.filter (·.1 = p))

/-- The first loop at one peer. -/
def mark (now : Nat) (p : PeerId) (seen : Option PeerReconnectInfo × List (PeerId × Text)) :
    Option PeerReconnectInfo × List (PeerId × Text) :=
  match seen.1 with
  | some info =>
    if info.shouldReconnect now then
      (some (info.markAttempt now), seen.2 ++ [(p, info.address)])
    else seen
  | none => seen

variable {now : Nat} {acc : Map PeerId PeerReconnectInfo × List (PeerId × Text)}

lemma collected_collect_of_ne {q : PeerId} (ne : q ≠ p) :
    collected p (collect now acc q) = collected p acc := by
  unfold collect
  split
  case h_1 =>
    split
    case isTrue =>
      refine Prod.ext (Finmap.lookup_insert_of_ne _ (Ne.symm ne)) ?_
      show List.filter _ (acc.2 ++ [_]) = _
      rw [List.filter_append, List.filter_singleton, decide_eq_false ne]
      exact List.append_nil _
    case isFalse => rfl
  case h_2 => rfl

lemma collected_collect_self : collected p (collect now acc p) = mark now p (collected p acc) := by
  unfold collect mark
  show _ = match acc.1.lookup p with | some _ => _ | none => _
  cases acc.1.lookup p with
  | none => rfl
  | some info =>
    dsimp only
    split
    case isTrue =>
      refine Prod.ext (Finmap.lookup_insert _) ?_
      show List.filter _ (acc.2 ++ [_]) = _
      rw [List.filter_append, List.filter_singleton, decide_eq_true rfl]
      rfl
    case isFalse => rfl

/-- The loop over the peers, for one of them. -/
lemma collected_loop :
    collected p ((ordered s.reconnectInfo.keys).foldl (collect now) (s.reconnectInfo, [])) =
      mark now p (s.reconnectInfo.lookup p, []) := by
  have own (acc) (q : PeerId) (e : id q = p) :
      collected p (collect now acc q) = mark now p (collected p acc) := by
    cases e
    exact collected_collect_self
  have hloop := @obs_foldl _ _ _ _ (collect now) id p (collected p) (fun seen _ => mark now p seen)
    _ (fun _ _ => collected_collect_of_ne) own (ordered s.reconnectInfo.keys) (s.reconnectInfo, [])
  rw [hloop]
  show List.foldl _ _ (List.filter (fun q => q = p) _) = _
  rw [filter_eq_of_nodup nodup_ordered]
  split
  case isTrue => rfl
  case isFalse absent =>
    have hnone : s.reconnectInfo.lookup p = none := by
      rw [mem_ordered, Finmap.mem_keys] at absent
      exact Finmap.lookup_eq_none.mpr absent
    simp only [List.foldl_nil, collected, hnone, mark]
    rfl

/-- A round of attempts as one peer's state sees it. -/
lemma view_attemptReconnections :
    (s.attemptReconnections dial).view p = (s.view p).attempt dial := by
  have hcollect := @collected_loop s p s.now
  rw [attemptReconnections]
  generalize (ordered s.reconnectInfo.keys).foldl (collect s.now) (s.reconnectInfo, []) = acc
    at hcollect
  obtain ⟨reconnectInfo, toReconnect⟩ := acc
  obtain ⟨hlookup, hlist⟩ := Prod.ext_iff.mp hcollect
  have hview : view p { s with reconnectInfo } =
      { s.view p with info := (mark s.now p (s.reconnectInfo.lookup p, [])).1 } :=
    congrArg (fun info => PeerView.mk s.now info (s.dialsTo p)) hlookup
  dsimp only
  rw [obs_foldl (fun _ _ => view_reconnect_of_ne) fun _ _ => view_reconnect_self, hview]
  have hlist : (toReconnect.filter fun e => e.1 = p) =
      (mark s.now p (s.reconnectInfo.lookup p, [])).2 := hlist
  rw [hlist, mark, PeerView.attempt, view]
  dsimp only
  cases s.reconnectInfo.lookup p with
  | none => rfl
  | some info =>
    dsimp only
    split
    case isTrue =>
      rw [List.nil_append, List.foldl_cons, List.foldl_nil, PeerView.redial]
      cases dial info.address with
      | true => rfl
      | false =>
        by_cases many : reconnectMaxAttempts < info.attemptCount + 1
        · simp [PeerReconnectInfo.markAttempt, many]
        · simp [PeerReconnectInfo.markAttempt, many, Nat.not_lt.mp many]
    case isFalse => rfl

/-- The view of a peer after an event that is not about its connections. -/
def PeerView.step : PeerEvent → PeerView → PeerView
  | .tick elapsed, v => { v with now := v.now + elapsed }
  | .timer dial, v => v.attempt dial
  | _, v => v

/-- A step as one peer's state sees it. -/
lemma view_step {e : PeerEvent} (calm : e.Calm p) : (s.step e).view p = (s.view p).step e := by
  cases e with
  | tick => rfl
  | timer => exact view_attemptReconnections
  | subscribePeers => rfl
  | discovered list => exact @obs_foldl_of_same _ _ _ discovered (view p) (fun _ _ => rfl) list s
  | expired list => exact @obs_foldl_of_same _ _ _ expired (view p) (fun _ _ => rfl) list s
  | connectionEstablished q address =>
    refine congrArg (fun info => PeerView.mk s.now info (s.dialsTo p)) ?_
    show (match s.reconnectInfo.lookup q with | some _ => _ | none => _ : Map _ _).lookup p = _
    cases s.reconnectInfo.lookup q with
    | none => rfl
    | some info => exact Finmap.lookup_insert_of_ne _ (Ne.symm calm)
  | connectionClosed q keepAlive =>
    have hschedule (s : Peering) :
        (s.schedule q keepAlive).lookup p = s.reconnectInfo.lookup p := by
      unfold schedule
      split
      case h_1 =>
        split
        case isTrue => rfl
        case isFalse => exact Finmap.lookup_insert_of_ne _ (Ne.symm calm)
      case h_2 => rfl
    show (s.connectionClosed q keepAlive).view p = s.view p
    unfold connectionClosed
    split
    case h_1 => rfl
    case h_2 =>
      dsimp only
      split
      case isTrue =>
        exact congrArg (fun info => PeerView.mk s.now info (s.dialsTo p)) (hschedule _)
      case isFalse => rfl

/-! ## How often a peer is dialed -/

/-- The time after which a peer can be dialed once more than `n` times. -/
def earliest : Nat → Nat
  | 0 => 0
  | n + 1 => earliest n + PeerReconnectInfo.backoff (n + 1)

lemma backoff_mono {m n : Nat} (h : m ≤ n) :
    PeerReconnectInfo.backoff m ≤ PeerReconnectInfo.backoff n := by
  refine Nat.mul_le_mul_left _ (Nat.pow_le_pow_right (by decide) ?_)
  omega

/-- From the thirteenth dial on the waiting time is the longest one. -/
lemma le_earliest (n : Nat) : (n - 11) * PeerReconnectInfo.backoff 12 ≤ earliest n := by
  induction n with
  | zero => exact Nat.le_of_eq (Nat.zero_mul _)
  | succ n ih =>
    rw [earliest]
    rcases Nat.lt_or_ge n 11 with few | many
    · rw [Nat.sub_eq_zero_of_le few, Nat.zero_mul]
      exact Nat.zero_le _
    · rw [Nat.succ_sub many, Nat.succ_mul]
      exact Nat.add_le_add ih (backoff_mono (Nat.succ_le_succ many))

/-- What holds of a peer after `k` dials since the time `start`. -/
structure Paced (start k : Nat) (v : PeerView) : Prop where
  since : start ≤ v.now
  paced : ∀ n, k = n + 1 → start + earliest n ≤ v.now
  info : ∀ info, v.info = some info → k ≤ info.attemptCount ∧
    ∀ n, k = n + 1 → ∃ last, info.lastAttempt = some last ∧ start + earliest n ≤ last

/-- Every event keeps the dials of a peer paced. -/
lemma Paced.step {start k : Nat} {v : PeerView} {e : PeerEvent} (h : Paced start k v) :
    ∃ k', (v.step e).dials.length + k = v.dials.length + k' ∧ Paced start k' (v.step e) := by
  cases e with
  | tick elapsed =>
    exact ⟨k, rfl, Nat.le_add_right_of_le h.since, fun n e => Nat.le_add_right_of_le (h.paced n e),
      h.info⟩
  | timer dial =>
    show ∃ k', (v.attempt dial).dials.length + k = v.dials.length + k' ∧
      Paced start k' (v.attempt dial)
    unfold PeerView.attempt
    cases hinfo : v.info with
    | none => exact ⟨k, rfl, h⟩
    | some info =>
      dsimp only
      split
      case isTrue should =>
        obtain ⟨hcount, hlast⟩ := h.info info hinfo
        -- the backoff since the last dial is over
        have hpaced : start + earliest k ≤ v.now := by
          cases k with
          | zero => exact h.since
          | succ n =>
            obtain ⟨last, hattempt, hle⟩ := hlast n rfl
            have hwait : PeerReconnectInfo.backoff info.attemptCount ≤ v.now - last := by
              rw [PeerReconnectInfo.shouldReconnect, hattempt] at should
              exact of_decide_eq_true should
            have hmono := backoff_mono hcount
            have hpos : 0 < PeerReconnectInfo.backoff (n + 1) :=
              Nat.mul_pos (by decide) (Nat.pow_pos (by decide))
            rw [earliest]
            omega
        refine ⟨k + 1, ?_, h.since, ?_, ?_⟩
        · rw [List.length_append, List.length_singleton]
          omega
        · rintro n ⟨⟩
          exact hpaced
        · intro info' e
          split at e
          case isTrue => cases e
          case isFalse =>
            cases e
            refine ⟨Nat.succ_le_succ hcount, ?_⟩
            rintro n ⟨⟩
            exact ⟨v.now, rfl, hpaced⟩
      case isFalse => exact ⟨k, rfl, h⟩
  | _ => exact ⟨k, rfl, h⟩

/-- While nothing happens to its connections, a peer is dialed twelve times and then once in `2 ^
12` seconds at most, however often the timer ticks. -/
theorem dials_bounded (run : Run step (fun _ e => e.Calm p) s s') :
    (s'.dialsTo p).length ≤
      (s.dialsTo p).length + 12 + (s'.now - s.now) / PeerReconnectInfo.backoff 12 := by
  have init : ∃ k, (s.dialsTo p).length = (s.dialsTo p).length + k ∧ Paced s.now k (s.view p) :=
    ⟨0, rfl, le_rfl, nofun, fun _ _ => ⟨Nat.zero_le _, nofun⟩⟩
  obtain ⟨k, hdials, h⟩ := run.invariant
    (I := fun t => ∃ k, (t.dialsTo p).length = (s.dialsTo p).length + k ∧
      Paced s.now k (t.view p)) init (by
    rintro t e ⟨k, hdials, h⟩ calm
    obtain ⟨k', hdials', h'⟩ := h.step (e := e)
    rw [← view_step calm] at hdials' h'
    have hdials' : ((t.step e).dialsTo p).length + k = (t.dialsTo p).length + k' := hdials'
    exact ⟨k', by omega, h'⟩)
  rw [hdials, Nat.add_assoc]
  refine Nat.add_le_add_left ?_ _
  cases k with
  | zero => exact Nat.zero_le _
  | succ n =>
    have hpaced : s.now + earliest n ≤ s'.now := h.paced n rfl
    have hle : n - 11 ≤ (s'.now - s.now) / PeerReconnectInfo.backoff 12 := by
      rw [Nat.le_div_iff_mul_le (by decide)]
      exact (le_earliest n).trans (by omega)
    omega

/-- Some ticks of the timer, five seconds apart, while a dial cannot begin. -/
def toyTicks (n : Nat) : List PeerEvent :=
  (List.replicate n [.tick 5000, .timer fun _ => false]).flatten

/-- A peer whose only connection was closed. -/
def toyLost : Peering :=
  [.connectionEstablished 7 ['a'], .connectionClosed 7 false].foldl (fun s e => s.step e) new

theorem dials_bounded_four_ticks :
    ((((toyTicks 4).foldl (fun s e => s.step e) toyLost).dialsTo 7).length = 3) ∧
      (((toyTicks 4).foldl (fun s e => s.step e) toyLost).dialsTo 7).length ≤
        (toyLost.dialsTo 7).length + 12 +
          (((toyTicks 4).foldl (fun s e => s.step e) toyLost).now - toyLost.now) /
            PeerReconnectInfo.backoff 12 := by
  refine ⟨by decide, dials_bounded (Run.ofList fun e mem t => ?_)⟩
  cases e with
  | connectionEstablished => simp [toyTicks] at mem
  | connectionClosed => simp [toyTicks] at mem
  | _ => trivial

/-! ## What the subscribers know -/

/-- The connections, and what the backend says of them. -/
def links (s : Peering) : (PeerId → Nat) × Finset PeerId × Option (Finset PeerId) :=
  (s.connections, s.peers, s.sent)

lemma links_attemptReconnections : (s.attemptReconnections dial).links = s.links := by
  refine @obs_foldl_of_same _ _ _ (reconnect dial) links (fun s e => ?_) _ _
  unfold reconnect
  dsimp only
  split
  case isTrue => rfl
  case isFalse =>
    split
    case h_1 => split <;> rfl
    case h_2 => rfl

/-- The connected peers are known, and the known ones were sent. -/
structure Tracked (s : Peering) : Prop where
  peers : ∀ p, 0 < s.connections p → p ∈ s.peers
  sent : ∀ p, p ∈ s.peers → s.sent = some s.peers

lemma tracked_sendPeers (h : ∀ p, 0 < s.connections p → p ∈ s.peers) : s.sendPeers.Tracked :=
  ⟨h, fun _ _ => rfl⟩

/-- The other peers keep their connections. -/
lemma Tracked.others {q : PeerId} {count : Nat} (h : s.Tracked) (ne : p ≠ q)
    (connected : 0 < Function.update s.connections q count p) : p ∈ s.peers := by
  rw [Function.update_of_ne ne] at connected
  exact h.peers p connected

/-- Every event keeps the peers tracked. -/
lemma Tracked.step (h : s.Tracked) (e : PeerEvent) : (s.step e).Tracked := by
  cases e with
  | tick => exact ⟨h.peers, h.sent⟩
  | timer dial =>
    obtain ⟨hconnections, hpeers, hsent⟩ : _ = s.connections ∧ _ = s.peers ∧ _ = s.sent := by
      simpa [links] using @links_attemptReconnections s dial
    show (s.attemptReconnections dial).Tracked
    constructor
    · rw [hconnections, hpeers]
      exact h.peers
    · rw [hpeers, hsent]
      exact h.sent
  | subscribePeers => exact tracked_sendPeers h.peers
  | discovered list =>
    refine List.foldlRecOn list _ h fun s h q _ => tracked_sendPeers fun p connected => ?_
    exact Finset.mem_insert_of_mem (h.peers p connected)
  | expired list =>
    exact List.foldlRecOn list _ h fun s h q _ => tracked_sendPeers h.peers
  | connectionEstablished q address =>
    refine tracked_sendPeers fun p connected => ?_
    by_cases same : p = q
    · exact Finset.mem_insert.mpr (.inl same)
    · exact Finset.mem_insert_of_mem (h.others same connected)
  | connectionClosed q keepAlive =>
    show (s.connectionClosed q keepAlive).Tracked
    unfold connectionClosed
    split
    case h_1 => exact h
    case h_2 numEstablished hcount =>
      dsimp only
      split
      case isTrue last =>
        refine tracked_sendPeers fun p connected => ?_
        by_cases same : p = q
        · have connected : 0 < Function.update s.connections q numEstablished p := connected
          rw [same, Function.update_self, last] at connected
          cases connected
        · exact Finset.mem_erase.mpr ⟨same, h.others same connected⟩
      case isFalse =>
        refine ⟨fun p connected => ?_, h.sent⟩
        by_cases same : p = q
        · exact h.peers p (by rw [same, hcount]; exact Nat.succ_pos _)
        · exact h.others same connected

/-- Whatever the swarm reports, the last list of peers that was sent has every connected peer. -/
theorem connected_peers_sent (run : Run step (fun _ _ => True) new s)
    (connected : 0 < s.connections p) : ∃ sent, s.sent = some sent ∧ p ∈ sent := by
  have init : new.Tracked := ⟨fun _ h => absurd h (Nat.lt_irrefl 0), nofun⟩
  have h := run.invariant init fun _ e h _ => h.step e
  have known := h.peers p connected
  exact ⟨s.peers, h.sent p known, known⟩

theorem connected_peers_sent_again :
    ∃ sent, ([.connectionEstablished 7 ['b']].foldl (fun s e => s.step e) toyLost).sent =
      some sent ∧ 7 ∈ sent := by
  have run : Run step (fun _ _ => True) new
      ([.connectionEstablished 7 ['a'], .connectionClosed 7 false,
        .connectionEstablished 7 ['b']].foldl (fun s e => s.step e) new) :=
    Run.ofList fun _ _ _ => trivial
  exact connected_peers_sent run (by decide)

/-! ## A peer that was lost once -/

/-- The backend after a list of events. -/
def play (events : List PeerEvent) (s : Peering) : Peering :=
  events.foldl (fun s e => s.step e) s

/-- A tick of the timer, and a dial that succeeds. -/
def round (p : PeerId) (address : Text) : List PeerEvent :=
  [.tick (1000 * reconnectIntervalSecs), .timer fun _ => true, .connectionEstablished p address]

/-- The peer is dialed at the next tick. -/
def Due (p : PeerId) (s : Peering) : Prop :=
  ∃ info, s.reconnectInfo.lookup p = some info ∧ info.lastAttempt = none

/-- A connection resets the entry for reconnecting. -/
lemma due_connectionEstablished {address : Text} {info : PeerReconnectInfo}
    (h : s.reconnectInfo.lookup p = some info) : (s.connectionEstablished p address).Due p := by
  refine ⟨info.resetAttempts, ?_, rfl⟩
  show (match s.reconnectInfo.lookup p with | some _ => _ | none => _ : Map _ _).lookup p = _
  rw [h]
  exact Finmap.lookup_insert _

/-- In a round the peer is dialed and connects once. -/
lemma play_round {address : Text} (h : s.Due p) :
    (s.play (round p address)).Due p ∧
      ((s.play (round p address)).dialsTo p).length = (s.dialsTo p).length + 1 ∧
      (s.play (round p address)).connections p = s.connections p + 1 := by
  obtain ⟨info, hinfo, hlast⟩ := h
  let ticked : Peering := { s with now := s.now + 1000 * reconnectIntervalSecs }
  have hview : (ticked.attemptReconnections fun _ => true).view p =
      ⟨ticked.now, some (info.markAttempt ticked.now), s.dialsTo p ++ [ticked.now]⟩ := by
    have hview : ticked.view p = ⟨ticked.now, some info, s.dialsTo p⟩ :=
      congrArg (fun info => PeerView.mk ticked.now info (s.dialsTo p)) hinfo
    rw [view_attemptReconnections, hview, PeerView.attempt]
    simp only [PeerReconnectInfo.shouldReconnect, hlast]
    rfl
  refine ⟨?_, ?_, ?_⟩
  · exact due_connectionEstablished (congrArg PeerView.info hview)
  · have hdials : (ticked.attemptReconnections fun _ => true).dialsTo p =
        s.dialsTo p ++ [ticked.now] := congrArg PeerView.dials hview
    show ((ticked.attemptReconnections fun _ => true).dialsTo p).length = _
    rw [hdials, List.length_append, List.length_singleton]
  · have hsame : (ticked.attemptReconnections fun _ => true).connections = s.connections :=
      congrArg (·.1) links_attemptReconnections
    show Function.update (ticked.attemptReconnections fun _ => true).connections p
      ((ticked.attemptReconnections fun _ => true).connections p + 1) p = _
    rw [Function.update_self, hsame]

/-- A peer that was lost and found again is dialed at every tick of the timer, though it is
connected: the entry for reconnecting is reset by each new connection and never removed. -/
theorem redialed_while_connected {address : Text} (h : s.Due p) (n : Nat) :
    ((s.play (List.replicate n (round p address)).flatten).dialsTo p).length =
        (s.dialsTo p).length + n ∧
      (s.play (List.replicate n (round p address)).flatten).connections p =
        s.connections p + n := by
  induction n generalizing s with
  | zero => exact ⟨rfl, rfl⟩
  | succ n ih =>
    obtain ⟨hdue, hdials, hconnections⟩ := @play_round s p address h
    obtain ⟨hdials', hconnections'⟩ := ih hdue
    rw [List.replicate_succ, List.flatten_cons, play, List.foldl_append]
    refine ⟨hdials'.trans ?_, hconnections'.trans ?_⟩
    · rw [hdials, Nat.add_right_comm, Nat.add_assoc]
    · rw [hconnections, Nat.add_right_comm, Nat.add_assoc]

theorem redialed_while_connected_lost :
    ((toyLost.play (List.replicate 100 (round 7 ['a'])).flatten).dialsTo 7).length = 100 ∧
      (toyLost.play (List.replicate 100 (round 7 ['a'])).flatten).connections 7 = 100 :=
  redialed_while_connected ⟨.new ['a'], by decide, rfl⟩ 100

end Peering

end Alys
