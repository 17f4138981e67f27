import Alys.Chain.Ancestry
import Alys.Chain.Blocks
import Alys.Chain.Sync
import Alys.Network.Serving

/-!
# Catching up with a peer

Two nodes: one calls `sync`, the other answers its requests with `get_blocks`. The peer holds a
single chain, the head of the other lies on it, and the blocks above that head are such that they
are imported one after the other.

Of the blocks that are asked for, the responder of the peer sends the first
(`FairServing.eventually_handed`). That is fewer than were asked for, and `sync` takes it for the
end of the chain: it returns with the status that lets the node take part in the consensus again,
one block further up. So a node takes as many calls as it lacks blocks
(`sync_climbs_one_block`).
-/

namespace Alys
open Lib

/-! ## The answers of the peer -/

namespace SingleChain

variable {P : Primitives} {peer : Chain} {chain : List SignedConsensusBlock}

section

variable (C : SingleChain P peer.storage peer.head chain)

include C

lemma getBlockByHeight_eq (n : Nat) :
    peer.storage.getBlockByHeight n = chain[n]? := by
  rw [Storage.getBlockByHeight, C.index]
  cases hb : chain[n]? with
  | none => rfl
  | some b => exact C.linear.getBlock (List.mem_of_getElem? hb)

lemma exists_last :
    ∃ last, chain.getLast? = some last ∧ peer.head = some (last.blockRef P) ∧
      last.number + 1 = chain.length := by
  obtain ⟨last, hlast⟩ := Option.isSome_iff_exists.mp
    (List.getLast?_isSome.mpr C.nonempty)
  refine ⟨last, hlast, by rw [C.head, C.linear.head, hlast]; rfl, ?_⟩
  rw [List.getLast?_eq_getElem?] at hlast
  have hnumber := C.linear.number hlast
  have := List.length_pos_iff.mpr C.nonempty
  omega

/-- Above the head the walk down from it finds nothing. -/
lemma blocksFromHead_eq {last} (hlast : chain.getLast? = some last) {height : Nat}
    (habove : last.number < height) :
    peer.storage.blocksFromHead height peer.storage.fuel (last.canonicalRoot P) [] = .ok [] := by
  have hstored := C.linear.getBlock (List.mem_of_getLast? hlast)
  rw [Storage.fuel, Storage.blocksFromHead]
  simp only [hstored, if_pos habove]

/-- The loop of a peer with a single chain. -/
lemma getBlocksLoop_eq {env : Env} {last} (hlast : chain.getLast? = some last)
    (hnumber : last.number + 1 = chain.length) {start remaining i : Nat}
    (hfits : start + i + remaining < 2 ^ 64) :
    (getBlocksLoop P env (last.blockRef P) start remaining i ((chain.drop start).take i) peer).1 =
      .ok ((chain.drop start).take (i + remaining)) := by
  induction remaining generalizing i with
  | zero => rfl
  | succ remaining ih =>
    rw [getBlocksLoop_succ, C.getBlockByHeight_eq, if_pos (show start + i < 2 ^ 64 by omega)]
    split
    case isTrue habove =>
      have habove : last.number < i := habove
      rw [List.take_of_length_le (by rw [List.length_drop]; omega),
        List.take_of_length_le (by rw [List.length_drop]; omega)]
    case isFalse =>
      cases hb : chain[start + i]? with
      | some b =>
        have hnext : (chain.drop start).take i ++ [b] = (chain.drop start).take (i + 1) := by
          rw [List.take_add_one, List.getElem?_drop, hb, Option.toList_some]
        simp only
        rw [hnext, ih (by omega), Nat.add_assoc, Nat.add_comm 1]
      | none =>
        have hend := List.getElem?_eq_none_iff.mp hb
        have hwalk := C.blocksFromHead_eq hlast (show last.number < start + i by omega)
        simp only [SignedConsensusBlock.blockRef, hwalk]
        rw [List.take_of_length_le (by rw [List.length_drop]; omega),
          List.take_of_length_le (by rw [List.length_drop]; omega)]
        exact congrArg _ (List.append_nil _)

/-- A request is answered with the blocks of the chain from the given height on. -/
lemma getBlocks_eq (env : Env) {start count : Nat} (hfits : start + count < 2 ^ 64) :
    (getBlocks P env start count peer).1 = .ok ((chain.drop start).take count) := by
  obtain ⟨last, hlast, hhead, hnumber⟩ := C.exists_last
  simp only [getBlocks, Action.bind_apply, Action.get_apply, Action.lift_apply, hhead, okOr]
  have h : (getBlocksLoop P env (last.blockRef P) start count 0 ((chain.drop start).take 0)
      peer).1 = .ok ((chain.drop start).take (0 + count)) :=
    C.getBlocksLoop_eq hlast hnumber (by omega)
  rwa [Nat.zero_add] at h

end

end SingleChain

/-! ## A session -/

/-- A node that syncs, and what is left of the answer to its last request. -/
structure Session where
  node : SyncNode Unit
  incoming : List SignedConsensusBlock

/-- `Follows P cfg env c blocks`: the node imports the blocks one after the other, one in each call
of `sync`; `env b` is what the environment answers during the import of `b`. -/
inductive Follows (P : Primitives) (cfg : ChainConfig) (env : SignedConsensusBlock → Env) :
    Chain → List SignedConsensusBlock → Prop where
  | nil {c} : Follows P cfg env c []
  | cons {c b blocks c' approval}
    (accepted : processBlock P cfg (env b) b { c with syncStatus := .inProgress } =
      (.ok approval, c'))
    (head : c'.head = some (b.blockRef P))
    (rest : Follows P cfg env { c' with syncStatus := .synced } blocks) :
    Follows P cfg env c (b :: blocks)

namespace Session

variable (P : Primitives) (cfg : ChainConfig) (env : SignedConsensusBlock → Env) (env₀ : Env)
  (peer : Chain)

/-- The blocks that the peer sends for a request, before the termination: the responder finds that
the sender of the answer to its first response was dropped, and stops. An error of `get_blocks` is
answered like an empty list. -/
def served (start : Nat) : List SignedConsensusBlock :=
  match (getBlocks P env₀ start blockCount peer).1 with
  | .ok blocks => blocks.take 1
  | .error _ => []

/-- The next step: the network delivers what the peer sends, and everything else takes its turn. -/
def step (s : Session) : Session :=
  match s.node.calls () with
  | .sendRpc head _ _ _ _ => ⟨s.node.rpc () true, served P env₀ peer (head + 1)⟩
  | .receive _ _ =>
    match s.incoming with
    | [] => ⟨s.node.recv P cfg () env₀ none, []⟩
    | b :: rest => ⟨s.node.recv P cfg () (env b) (some (.blocksByRange b)), rest⟩
  | _ => ⟨s.node.resume P () env₀, s.incoming⟩

/-- Steps lead from a session to another. -/
def Leads (s t : Session) : Prop := ∃ n, (step P cfg env env₀ peer)^[n] s = t

/-- `Calls k s t`: from `s` to `t`, `sync` is called `k` times, each time when the call before has
returned. -/
inductive Calls : Nat → SyncNode Unit → SyncNode Unit → Prop where
  | zero {s} : Calls 0 s s
  | succ {k s t u} (leads : Leads P cfg env env₀ peer ⟨s.call (), []⟩ t)
    (returned : t.node.calls () = .returned) (rest : Calls k t.node u) : Calls (k + 1) s u

variable {blocks : List SignedConsensusBlock}

/-- The responder of the peer, in every behavior in which it and the backend keep running. -/
lemma served_eq_handed {P : Primitives} {env₀ : Env} {peer : Chain} {start : Nat}
    {substream : Substream} {B : FairServing substream}
    (hblocks : (getBlocks P env₀ start blockCount peer).1 = .ok blocks)
    (hserving : Serving.At (.serving blocks) [] (B.state 0)) :
    ∃ n, ∀ m, n ≤ m → (B.state m).handed =
      (served P env₀ peer start).map (fun b => (substream, .success b)) ++
        [(substream, .streamTermination)] := by
  rw [served, hblocks]
  exact FairServing.eventually_handed hserving

variable {P cfg env env₀ peer} {s t u : Session}

lemma Leads.trans (h : Leads P cfg env env₀ peer s t) (h' : Leads P cfg env env₀ peer t u) :
    Leads P cfg env env₀ peer s u := by
  obtain ⟨n, rfl⟩ := h
  obtain ⟨m, rfl⟩ := h'
  exact ⟨m + n, Function.iterate_add_apply _ m n s⟩

lemma Leads.single (h : step P cfg env env₀ peer s = t) : Leads P cfg env env₀ peer s t := ⟨1, h⟩

/-- A call at an await, with the rest of the node. -/
def At (chain : Chain) (cb : RpcCircuitBreaker) (peers : List PeerId) (now : Nat)
    (log : List SyncMark) (task : SyncTask) (incoming : List SignedConsensusBlock) : Session :=
  ⟨⟨chain, cb, peers, now, fun _ => task, log⟩, incoming⟩

variable {c c' : Chain} {cb : RpcCircuitBreaker} {peers : List PeerId} {now : Nat}
  {log : List SyncMark}

/-- A request is sent and answered. -/
lemma leads_receive (hpeers : peers ≠ []) (hclosed : cb.isOpen = false) :
    Leads P cfg env env₀ peer ⟨SyncNode.call () ⟨c, cb, peers, now, fun _ => .returned, log⟩, []⟩
      (At { c with syncStatus := .inProgress } cb.recordSuccess peers now (log ++ [.succeeded])
        (.receive ((c.head.map (·.height)).getD 0) 0)
        (served P env₀ peer ((c.head.map (·.height)).getD 0 + 1))) := by
  obtain ⟨count, last, isOpen, threshold, timeout⟩ := cb
  obtain rfl : isOpen = false := hclosed
  obtain ⟨first, rest, rfl⟩ := List.exists_cons_of_ne_nil hpeers
  exact ⟨6, rfl⟩

variable {b : SignedConsensusBlock}

/-- A block of an answer is imported. -/
lemma leads_processed {head processed : Nat} {approval : Option IndividualApproval}
    (accepted : processBlock P cfg (env b) b c = (.ok approval, c')) :
    Leads P cfg env env₀ peer (At c cb peers now log (.receive head processed) (b :: blocks))
      (At c' cb peers now log (.receive head (processed + 1)) blocks) := by
  refine .single ?_
  simp only [step, At, SyncNode.recv, SyncNode.process, accepted, SyncTask.processed]
  rfl

/-- After an answer with fewer blocks than were asked for the call returns. -/
lemma leads_returned {head processed : Nat} (h : processed < blockCount) :
    Leads P cfg env env₀ peer (At c cb peers now log (.receive head processed) [])
      (At { c with syncStatus := .synced } cb peers now log .returned []) := by
  have hstep : step P cfg env env₀ peer (At c cb peers now log (.receive head processed) []) =
      At c cb peers now log .complete [] := by
    simp only [step, At, SyncNode.recv, if_pos h]
    rfl
  exact (Leads.single hstep).trans ⟨1, rfl⟩

variable {full : List SignedConsensusBlock}

/-- The peer sends the block above the head, if there is one. -/
lemma leads_answered (C : SingleChain P peer.storage peer.head full) (hpeers : peers ≠ [])
    (hclosed : cb.isOpen = false) (hsize : b.number + 1 + blockCount < 2 ^ 64)
    (hhead : c.head = some (b.blockRef P)) :
    Leads P cfg env env₀ peer ⟨SyncNode.call () ⟨c, cb, peers, now, fun _ => .returned, log⟩, []⟩
      (At { c with syncStatus := .inProgress } cb.recordSuccess peers now (log ++ [.succeeded])
        (.receive b.number 0) ((full.drop (b.number + 1)).take 1)) := by
  have hheight : (c.head.map (·.height)).getD 0 = b.number := by
    rw [hhead]
    rfl
  have hserved : served P env₀ peer (b.number + 1) = (full.drop (b.number + 1)).take 1 := by
    rw [served, C.getBlocks_eq env₀ hsize]
    exact List.take_take
  rw [← hserved, ← hheight]
  exact leads_receive hpeers hclosed

/-- The head after a number of calls is as many blocks further up, or the last one. -/
lemma calls_climb (C : SingleChain P peer.storage peer.head full) (hpeers : peers ≠ [])
    (hsize : full.length + blockCount < 2 ^ 64) (k : Nat) (hb : b ∈ full)
    (hhead : c.head = some (b.blockRef P))
    (hfollows : Follows P cfg env c (full.drop (b.number + 1))) (hclosed : cb.isOpen = false) :
    ∃ t b', Calls P cfg env env₀ peer k ⟨c, cb, peers, now, fun _ => .returned, log⟩ t ∧
      (c.syncStatus = .synced ∨ 0 < k → t.chain.syncStatus = .synced) ∧ b' ∈ full ∧
      t.chain.head = some (b'.blockRef P) ∧
      b'.number + 1 = min (b.number + 1 + k) full.length := by
  induction k generalizing c cb log b with
  | zero =>
    obtain ⟨hlt, _⟩ := List.getElem?_eq_some_iff.mp (C.linear.getElem? hb)
    refine ⟨_, b, .zero, fun h => ?_, hb, hhead, by omega⟩
    exact h.resolve_right (Nat.lt_irrefl 0)
  | succ k ih =>
    obtain ⟨hlt, _⟩ := List.getElem?_eq_some_iff.mp (C.linear.getElem? hb)
    have hanswered : Leads P cfg env env₀ peer
        ⟨SyncNode.call () ⟨c, cb, peers, now, fun _ => .returned, log⟩, []⟩ _ :=
      leads_answered C hpeers hclosed (by omega) hhead
    cases hdrop : full.drop (b.number + 1) with
    | nil =>
      have hle := List.drop_eq_nil_iff.mp hdrop
      rw [hdrop] at hanswered
      obtain ⟨t, b', hcalls, hsynced, hmem, hhead', hnumber⟩ :=
        @ih { c with syncStatus := .synced } cb.recordSuccess (log ++ [.succeeded]) b hb hhead
          (hdrop ▸ .nil) rfl
      exact ⟨t, b', .succ (hanswered.trans (leads_returned (by decide))) rfl hcalls,
        fun _ => hsynced (.inl rfl), hmem, hhead', by omega⟩
    | cons next blocks =>
      rw [hdrop] at hanswered hfollows
      have hnext : full[b.number + 1]? = some next := by
        rw [← List.head?_drop, hdrop]
        rfl
      have hnumber := C.linear.number hnext
      have hrest : full.drop (next.number + 1) = blocks := by
        rw [hnumber, ← List.drop_drop, hdrop]
        rfl
      cases hfollows with
      | @cons _ _ _ c₁ approval accepted hhead₁ rest =>
        obtain ⟨t, b', hcalls, hsynced, hmem, hhead', hnumber'⟩ :=
          @ih { c₁ with syncStatus := .synced } cb.recordSuccess (log ++ [.succeeded]) next
            (List.mem_of_getElem? hnext) hhead₁ (hrest.symm ▸ rest) rfl
        have hleads := (hanswered.trans (leads_processed accepted)).trans
          (leads_returned (by decide))
        exact ⟨t, b', .succ hleads rfl hcalls, fun _ => hsynced (.inl rfl), hmem, hhead', by omega⟩

/-- A node whose head lies on the single chain of its peer, and that can import the blocks above one
after the other, climbs by one block with each call of `sync`. Each call leaves it marked as synced;
it has the head of the peer exactly if there were as many calls as it lacked blocks. -/
theorem sync_climbs_one_block {P : Primitives} {cfg : ChainConfig}
    {env : SignedConsensusBlock → Env} {env₀ : Env} {peer : Chain}
    {full : List SignedConsensusBlock} {s : SyncNode Unit} {b : SignedConsensusBlock}
    (C : SingleChain P peer.storage peer.head full)
    (hsize : full.length + blockCount < 2 ^ 64) (hb : b ∈ full)
    (hhead : s.chain.head = some (b.blockRef P))
    (hfollows : Follows P cfg env s.chain (full.drop (b.number + 1)))
    (hcall : s.calls () = .returned) (hpeers : s.peers ≠ [])
    (hclosed : s.circuitBreaker.isOpen = false) (k : Nat) :
    ∃ t b', Calls P cfg env env₀ peer k s t ∧ (0 < k → t.chain.syncStatus = .synced) ∧
      b' ∈ full ∧ t.chain.head = some (b'.blockRef P) ∧
      b'.number = min (b.number + k) (full.length - 1) ∧
      (t.chain.head = peer.head ↔ full.length ≤ b.number + 1 + k) := by
  obtain ⟨chain, cb, peers, now, calls, log⟩ := s
  obtain rfl : calls = fun _ => .returned := funext fun _ => hcall
  obtain ⟨t, b', hcalls, hsynced, hmem, hhead', hnumber⟩ :=
    calls_climb C hpeers hsize k hb hhead hfollows hclosed
  obtain ⟨last, hlast, hpeer, hlength⟩ := C.exists_last
  refine ⟨t, b', hcalls, fun hpos => hsynced (.inr hpos), hmem, hhead', by omega, ?_⟩
  rw [hhead', hpeer]
  constructor
  · intro e
    have hheight : b'.number = last.number := congrArg BlockRef.height (Option.some.inj e)
    omega
  · intro hle
    rw [C.linear.eq_of_number (List.mem_of_getLast? hlast) hmem (by omega)]

/-- A peer that has imported two blocks on the genesis block. -/
def toyPeer : Chain :=
  Chain.toyReorg [.accept .toyNumbered (.toyNumbered 1), .accept .toyNumbered (.toyNumbered 2)]

/-- The genesis block of the closed instances. -/
def toyFirst : SignedConsensusBlock :=
  ⟨⟨Hash256.zero, 0, some ⟨Hash256.zero, Hash256.zero, 0x1d00ffff, 1, 0, none, Address.zero⟩,
    .toy 0, [], none, []⟩, .new .toy⟩

lemma toyPeer_singleChain :
    SingleChain .toy toyPeer.storage toyPeer.head [toyFirst, .toyNumbered 1, .toyNumbered 2] := by
  have hg : toyFirst.IsGenesis := ⟨rfl, rfl, ⟨_, rfl, rfl, rfl⟩, rfl, rfl⟩
  have hfirst : ExtendsHead (Storage.empty.extend .toy toyFirst 0 true)
      (SignedConsensusBlock.toyNumbered 1).message := ⟨_, rfl, by decide, rfl⟩
  have hsecond : ExtendsHead ((Storage.empty.extend .toy toyFirst 0 true).extend .toy
      (.toyNumbered 1) 0 true) (SignedConsensusBlock.toyNumbered 2).message :=
    ⟨_, rfl, by decide, rfl⟩
  exact ((SingleChain.ofGenesis Primitives.toy_rootsSound hg 0).extend Primitives.toy_rootsSound
    hfirst 0).extend Primitives.toy_rootsSound hsecond 0

/-- A node with the genesis block takes itself for synced after one call, but lacks one of the two
blocks of its peer. -/
theorem sync_climbs_one_block_behind :
    ∃ t, Calls .toy (.toy 1 0) (fun _ => .toyNumbered) .toyNumbered toyPeer 1
        { SyncNode.start Chain.toyGenesis with peers := [1] } t ∧
      t.chain.syncStatus = .synced ∧ t.chain.head ≠ toyPeer.head := by
  have hfollows : Follows .toy (.toy 1 0) (fun _ => .toyNumbered) Chain.toyGenesis
      [.toyNumbered 1, .toyNumbered 2] :=
    .cons rfl rfl (.cons rfl rfl .nil)
  have hmem : toyFirst ∈ [toyFirst, .toyNumbered 1, .toyNumbered 2] := List.mem_cons_self
  obtain ⟨t, _, hcalls, hsynced, _, _, _, hpeer⟩ : ∃ t b', Calls .toy (.toy 1 0) _ .toyNumbered
      toyPeer 1 { SyncNode.start Chain.toyGenesis with peers := [1] } t ∧ _ ∧ b' ∈ _ ∧ _ ∧ _ ∧ _ :=
    sync_climbs_one_block toyPeer_singleChain (by decide) hmem rfl hfollows rfl
      (List.cons_ne_nil 1 []) rfl 1
  exact ⟨t, hcalls, hsynced Nat.one_pos, fun e => absurd (hpeer.mp e) (by decide)⟩

end Session

end Alys
