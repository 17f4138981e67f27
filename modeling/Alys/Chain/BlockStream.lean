import Alys.Chain.Monitor

/-!
# Streaming blocks from a Bitcoin node

Model of `wait_for_block` and `stream_blocks` in `crates/federation/src/bitcoin_stream.rs` and of
`stream_blocks_for_pegins` in `crates/federation/src/lib.rs`, which the monitor calls. A block is
fetched by three requests, and between any two of them the best chain of the Bitcoin node may have
become another one. A request may also fail.

`Chain.Monitor` reads the confirmed blocks from a chain that is fixed. `callbacks_follow_best` says
that this is what the stream gives, as long as no reorganisation is as deep as the number of
confirmations.

`callbacks` is not part of the stream: it records the calls of the monitor's callback.
-/

namespace Alys
open Lib

/-! ## The Bitcoin node -/

/-- A Bitcoin node: the blocks that it knows with their heights, and the hashes of its best chain.
-/
structure BitcoinNode where
  index : Map BlockHash (BitcoinBlock × Nat)
  best : List BlockHash
  indexed : ∀ {height hash}, best[height]? = some hash →
    ∃ block, index.lookup hash = some (block, height)

/-- `bitcoincore_rpc::Error`: one that the node answers with, or another. -/
inductive BitcoinError where
  | jsonRpc (code : Int) (message : Text)
  | other

namespace BitcoinNode

def blockNotFound : Text := "Block not found".toList

/-- `getblockhash`. -/
def getBlockHash (node : BitcoinNode) (height : Nat) : Except BitcoinError BlockHash :=
  match node.best[height]? with
  | some hash => .ok hash
  | none => .error (.jsonRpc (-8) "Block height out of range".toList)

/-- The confirmations in the answer to `getblock`; a block that is not in the best chain has `-1`.
-/
def getBlockInfo (node : BitcoinNode) (hash : BlockHash) : Except BitcoinError Int :=
  match node.index.lookup hash with
  | some (_, height) =>
    .ok (if node.best[height]? = some hash then (node.best.length : Int) - height else -1)
  | none => .error (.jsonRpc (-5) blockNotFound)

/-- The block in the answer to `getblock`. -/
def getBlock (node : BitcoinNode) (hash : BlockHash) : Except BitcoinError BitcoinBlock :=
  match node.index.lookup hash with
  | some (block, _) => .ok block
  | none => .error (.jsonRpc (-5) blockNotFound)

/-- A later state of a node: it forgets no block, the best chain is not shorter, and no block with
`depth` others above it has left it. -/
structure Extends (depth : Nat) (node node' : BitcoinNode) : Prop where
  index : ∀ {hash entry}, node.index.lookup hash = some entry →
    node'.index.lookup hash = some entry
  length : node.best.length ≤ node'.best.length
  settled : node.best.take (node.best.length - depth) <+: node'.best

/-- A Bitcoin node with a deposit of 1000 satoshi in its first block and one of two tips above it.
-/
def toy (tip : Bool) : BitcoinNode where
  index :=
    ((∅ : Map BlockHash (BitcoinBlock × Nat)).insert [1]
        (⟨[1], [⟨2, 0, [], [⟨1000, [0x51]⟩, ⟨0, [0x6a]⟩]⟩]⟩, 0)
      |>.insert [2] (⟨[2], []⟩, 1)).insert [3] (⟨[3], []⟩, 1)
  best := [[1], if tip then [3] else [2]]
  indexed := by
    intro height hash h
    match height, tip with
    | 0, _ => cases h; exact ⟨_, rfl⟩
    | 1, true => cases h; exact ⟨_, rfl⟩
    | 1, false => cases h; exact ⟨_, rfl⟩

end BitcoinNode

/-! ## The stream -/

/-- The errors on which `wait_for_block` tries again: the block does not exist yet. -/
def BitcoinError.isMissing : BitcoinError → Bool
  | .jsonRpc code message =>
    code = -8 || code = -5 && message.tails.any BitcoinNode.blockNotFound.isPrefixOf
  | .other => false

/-- Where the stream stands: before the request for the hash, the confirmations or the block. -/
inductive StreamTask where
  | waiting (height : Nat)
  | found (height : Nat) (hash : BlockHash)
  | confirmed (height : Nat) (hash : BlockHash)
  /-- the stream gave an error, which is unwrapped -/
  | crashed
  deriving DecidableEq

structure PeginStream where
  node : BitcoinNode
  task : StreamTask
  /-- the latest last -/
  callbacks : List (List PegInInfo × Nat)

inductive StreamEvent where
  /-- the Bitcoin node has changed -/
  | node (node : BitcoinNode)
  /-- a request is answered, with an error of the connection or by the node -/
  | answer (fault : Option BitcoinError)

/-- The answer to a request. -/
def answered {α : Type} (fault : Option BitcoinError) (answer : Except BitcoinError α) :
    Except BitcoinError α :=
  match fault with
  | some e => .error e
  | none => answer

namespace PeginStream

variable (P : Primitives) (bridge : Bridge)

/-- `stream_blocks_for_pegins` is called. -/
def start (node : BitcoinNode) (startHeight : Nat) : PeginStream :=
  ⟨node, .waiting startHeight, []⟩

/-- After `get_block_hash`. -/
def onHash (height : Nat) : Except BitcoinError BlockHash → StreamTask
  | .ok hash => .found height hash
  | .error e => if e.isMissing then .waiting height else .crashed

/-- After `get_block_info`. -/
def onInfo (height : Nat) (hash : BlockHash) : Except BitcoinError Int → StreamTask
  | .ok confirmations =>
    if (bridge.requiredConfirmations : Int) ≤ confirmations then .confirmed height hash
    else .waiting height
  | .error _ => .crashed

/-- After `get_block`: the callback is called for the peg-ins of the block. -/
def onBlock (height : Nat) (s : PeginStream) : Except BitcoinError BitcoinBlock → PeginStream
  | .ok block =>
    match checkedU32 (height + 1) with
    | .ok next =>
      { s with
        task := .waiting next
        callbacks := s.callbacks ++ [(bridge.blockPegins P block height, height)] }
    | .error _ => { s with task := .crashed }
  | .error _ => { s with task := .crashed }

/-- The stream after an event. -/
def step : StreamEvent → PeginStream → PeginStream
  | .node node, s => { s with node }
  | .answer fault, s =>
    match s.task with
    | .waiting height =>
      { s with task := onHash height (answered fault (s.node.getBlockHash height)) }
    | .found height hash =>
      { s with task := onInfo bridge height hash (answered fault (s.node.getBlockInfo hash)) }
    | .confirmed height hash =>
      s.onBlock P bridge height (answered fault (s.node.getBlock hash))
    | .crashed => s

/-- The stream after a list of events. -/
def play (events : List StreamEvent) (s : PeginStream) : PeginStream :=
  events.foldl (fun s e => s.step P bridge e) s

/-- No block that is confirmed leaves the best chain. -/
def Shallow (s : PeginStream) : StreamEvent → Prop
  | .node node => s.node.Extends (bridge.requiredConfirmations - 1) node
  | .answer _ => True

variable {P bridge} {s : PeginStream} {startHeight : Nat}

/-! ## What is streamed -/

/-- A hash is in the best chain with at least `depth` others above it. -/
def Settled (depth : Nat) (node : BitcoinNode) (height : Nat) (hash : BlockHash) : Prop :=
  node.best[height]? = some hash ∧ height + depth < node.best.length

variable {height : Nat} {node node' : BitcoinNode} {hash : BlockHash}

lemma Settled.extends {depth : Nat} (h : Settled depth node height hash)
    (later : node.Extends depth node') :
    Settled depth node' height hash := by
  obtain ⟨hbest, hlt⟩ := h
  refine ⟨?_, hlt.trans_le later.length⟩
  obtain ⟨rest, e⟩ := later.settled
  have hlen : height < (node.best.take (node.best.length - depth)).length := by
    rw [List.length_take]
    omega
  rw [← e, List.getElem?_append_left hlen, List.getElem?_take_of_lt (by omega), hbest]

/-- What the stream has when it is at a task, before the block at the height `next`. -/
def Expects (depth : Nat) (node : BitcoinNode) (next : Nat) : StreamTask → Prop
  | .waiting height => height = next
  | .found height hash => height = next ∧ ∃ block, node.index.lookup hash = some (block, height)
  | .confirmed height hash =>
    height = next ∧ (∃ block, node.index.lookup hash = some (block, height)) ∧
      Settled depth node height hash
  | .crashed => True

/-- The call of the callback for a block of the best chain. -/
def Called (P : Primitives) (bridge : Bridge) (node : BitcoinNode) (height : Nat)
    (call : List PegInInfo × Nat) : Prop :=
  ∃ hash block, Settled (bridge.requiredConfirmations - 1) node height hash ∧
    node.index.lookup hash = some (block, height) ∧
    call = (bridge.blockPegins P block height, height)

/-- The callbacks so far are those for the blocks of the best chain from a height on, and the stream
goes on with the next one. -/
structure Follows (P : Primitives) (bridge : Bridge) (startHeight : Nat) (s : PeginStream) :
    Prop where
  callbacks : ∀ {k call}, s.callbacks[k]? = some call →
    Called P bridge s.node (startHeight + k) call
  task : Expects (bridge.requiredConfirmations - 1) s.node (startHeight + s.callbacks.length) s.task

lemma Expects.extends {depth next : Nat} {task : StreamTask} (h : Expects depth node next task)
    (later : node.Extends depth node') :
    Expects depth node' next task := by
  cases task with
  | waiting => exact h
  | found =>
    obtain ⟨e, block, hblock⟩ := h
    exact ⟨e, block, later.index hblock⟩
  | confirmed =>
    obtain ⟨e, ⟨block, hblock⟩, hsettled⟩ := h
    exact ⟨e, ⟨block, later.index hblock⟩, hsettled.extends later⟩
  | crashed => trivial

lemma Called.extends {call : List PegInInfo × Nat} (h : Called P bridge node height call)
    (later : node.Extends (bridge.requiredConfirmations - 1) node') :
    Called P bridge node' height call := by
  obtain ⟨hash, block, hsettled, hblock, e⟩ := h
  exact ⟨hash, block, hsettled.extends later, later.index hblock, e⟩

lemma expects_onHash {depth height : Nat} {node : BitcoinNode} (fault : Option BitcoinError) :
    Expects depth node height (onHash height (answered fault (node.getBlockHash height))) := by
  have retried (e : BitcoinError) : Expects depth node height (onHash height (.error e)) := by
    rw [onHash]
    split
    case isTrue => rfl
    case isFalse => trivial
  cases fault with
  | some e => exact retried e
  | none =>
    rw [answered, BitcoinNode.getBlockHash]
    cases hbest : node.best[height]? with
    | none => exact retried _
    | some hash => exact ⟨rfl, node.indexed hbest⟩

/-- A block with enough confirmations is in the best chain. -/
lemma expects_onInfo {node : BitcoinNode} {block : BitcoinBlock}
    (hblock : node.index.lookup hash = some (block, height)) (fault : Option BitcoinError) :
    Expects (bridge.requiredConfirmations - 1) node height
      (onInfo bridge height hash (answered fault (node.getBlockInfo hash))) := by
  cases fault with
  | some e => trivial
  | none =>
    rw [answered, BitcoinNode.getBlockInfo, hblock]
    show Expects _ _ _ (if _ ≤ (if _ then _ else _) then _ else _)
    split
    case isTrue hbest =>
      have lt := (List.getElem?_eq_some_iff.mp hbest).1
      split
      case isTrue enough =>
        have enough : (bridge.requiredConfirmations : Int) ≤ (node.best.length : Int) - height :=
          enough
        exact ⟨rfl, ⟨block, hblock⟩, hbest, by omega⟩
      case isFalse => rfl
    case isFalse =>
      rw [if_neg (by omega)]
      rfl

/-- A settled block is handed to the callback. -/
lemma Follows.onBlock {block : BitcoinBlock} (h : s.Follows P bridge startHeight)
    (hheight : height = startHeight + s.callbacks.length)
    (hblock : s.node.index.lookup hash = some (block, height))
    (hsettled : Settled (bridge.requiredConfirmations - 1) s.node height hash)
    (fault : Option BitcoinError) :
    (s.onBlock P bridge height (answered fault (s.node.getBlock hash))).Follows P bridge
      startHeight := by
  cases fault with
  | some e => exact ⟨h.callbacks, trivial⟩
  | none =>
    rw [answered, BitcoinNode.getBlock, hblock, PeginStream.onBlock]
    cases hnext : checkedU32 (height + 1) with
    | error => exact ⟨h.callbacks, trivial⟩
    | ok next =>
      refine ⟨fun {k call} hcall => ?_, ?_⟩
      · rcases Nat.lt_or_ge k s.callbacks.length with lt | ge
        · rw [List.getElem?_append_left lt] at hcall
          exact h.callbacks hcall
        · rw [List.getElem?_append_right ge, List.getElem?_singleton] at hcall
          split at hcall
          case isFalse => cases hcall
          case isTrue last =>
            cases hcall
            obtain rfl : k = s.callbacks.length := by omega
            rw [← hheight]
            exact ⟨hash, block, hsettled, hblock, rfl⟩
      · show next = startHeight + (s.callbacks ++ [_]).length
        rw [checkedU32_eq_ok hnext, List.length_append, List.length_singleton, hheight,
          Nat.add_assoc]

/-- Every event keeps the stream on the best chain. -/
lemma Follows.step {e : StreamEvent} (h : s.Follows P bridge startHeight)
    (shallow : s.Shallow bridge e) : (s.step P bridge e).Follows P bridge startHeight := by
  cases e with
  | node node =>
    exact ⟨fun hcall => (h.callbacks hcall).extends shallow, h.task.extends shallow⟩
  | answer fault =>
    have htask := h.task
    rw [PeginStream.step]
    cases hs : s.task with
    | crashed => exact h
    | waiting height =>
      rw [hs] at htask
      refine ⟨h.callbacks, ?_⟩
      show Expects _ s.node (startHeight + s.callbacks.length) _
      rw [← htask]
      exact expects_onHash fault
    | found height hash =>
      rw [hs] at htask
      obtain ⟨hheight, block, hblock⟩ := htask
      refine ⟨h.callbacks, ?_⟩
      show Expects _ s.node (startHeight + s.callbacks.length) _
      rw [← hheight]
      exact expects_onInfo hblock fault
    | confirmed height hash =>
      rw [hs] at htask
      obtain ⟨hheight, ⟨block, hblock⟩, hsettled⟩ := htask
      exact h.onBlock hheight hblock hsettled fault

/-- While no reorganisation is as deep as the required confirmations, the callback is called for the
blocks of the best chain from the start height on, for each height once and in order, whenever the
node changes and whatever fails; the blocks it was called for stay in the best chain. -/
theorem callbacks_follow_best {node : BitcoinNode}
    (run : Run (step P bridge) (Shallow bridge) (start node startHeight) s) {k : Nat}
    {call : List PegInInfo × Nat} (hcall : s.callbacks[k]? = some call) :
    ∃ hash block, s.node.best[startHeight + k]? = some hash ∧
      s.node.index.lookup hash = some (block, startHeight + k) ∧
      call = (bridge.blockPegins P block (startHeight + k), startHeight + k) := by
  have init : (start node startHeight).Follows P bridge startHeight := ⟨nofun, rfl⟩
  have h : s.Follows P bridge startHeight := run.invariant init fun _ _ h ok => h.step ok
  obtain ⟨hash, block, hsettled, hblock, e⟩ := h.callbacks hcall
  exact ⟨hash, block, hsettled.1, hblock, e⟩

/-- The tip changes when the stream is about to fetch the block with the deposit. -/
theorem callbacks_follow_best_fork :
    let bridge : Bridge := ⟨[[0x51]], 2⟩
    let s := (start (.toy false) 0).play .toy bridge
      [.answer none, .answer none, .node (.toy true), .answer none]
    s.callbacks[0]? = some ([⟨[1], [1], 1000, [7], 0⟩], 0) ∧
      ∃ hash block, s.node.best[0 + 0]? = some hash ∧
        s.node.index.lookup hash = some (block, 0 + 0) ∧
        ([⟨[1], [1], 1000, [7], 0⟩], 0) = (bridge.blockPegins .toy block (0 + 0), 0 + 0) := by
  intro bridge s
  have hcall : s.callbacks[0]? = some ([⟨[1], [1], 1000, [7], 0⟩], 0) := by decide
  have fork : (BitcoinNode.toy false).Extends 1 (.toy true) :=
    ⟨fun h => h, le_rfl, ⟨[[3]], rfl⟩⟩
  have run : Run (step .toy bridge) (Shallow bridge) (start (.toy false) 0) s :=
    .snoc (.snoc (.snoc (.snoc .refl (StreamEvent.answer none) trivial)
      (StreamEvent.answer none) trivial) (StreamEvent.node (.toy true)) fork)
      (StreamEvent.answer none) trivial
  exact ⟨hcall, callbacks_follow_best run hcall⟩

/-! ## That blocks are streamed -/

/-- The stream after some requests that the node answers. -/
def fetch (P : Primitives) (bridge : Bridge) (requests : Nat) (s : PeginStream) : PeginStream :=
  s.play P bridge (List.replicate requests (.answer none))

/-- Three requests give the next block of the best chain. -/
lemma fetch_three (htask : s.task = .waiting height)
    (hlen : height + (bridge.requiredConfirmations - 1) < s.node.best.length)
    (hmax : height + 1 < 2 ^ 32) :
    ∃ call, Called P bridge s.node height call ∧ s.fetch P bridge 3 =
      { s with task := .waiting (height + 1), callbacks := s.callbacks ++ [call] } := by
  have lt : height < s.node.best.length := by omega
  obtain ⟨hash, hbest⟩ : ∃ hash, s.node.best[height]? = some hash :=
    ⟨_, List.getElem?_eq_getElem lt⟩
  obtain ⟨block, hblock⟩ := s.node.indexed hbest
  have hhash : s.node.getBlockHash height = .ok hash := by
    rw [BitcoinNode.getBlockHash, hbest]
  have hinfo : s.node.getBlockInfo hash = .ok ((s.node.best.length : Int) - height) := by
    rw [BitcoinNode.getBlockInfo, hblock]
    exact congrArg Except.ok (if_pos hbest)
  have hget : s.node.getBlock hash = .ok block := by
    rw [BitcoinNode.getBlock, hblock]
  have enough : (bridge.requiredConfirmations : Int) ≤ (s.node.best.length : Int) - height := by
    omega
  have hnext : checkedU32 (height + 1) = .ok (height + 1) := if_pos hmax
  refine ⟨(bridge.blockPegins P block height, height),
    ⟨hash, block, ⟨hbest, hlen⟩, hblock, rfl⟩, ?_⟩
  simp only [fetch, play, List.replicate_succ, List.replicate_zero, List.foldl_cons, List.foldl_nil,
    step, htask, answered, hhash, onHash, hinfo, onInfo, if_pos enough, hget, onBlock, hnext]

/-- Every block with enough confirmations is streamed: three requests for each of them call the
callback for the next blocks of the best chain, in order and each with its height, and bring the
stream to the block after them. -/
theorem confirmed_blocks_streamed {height n : Nat} (htask : s.task = .waiting height)
    (hlen : height + n + (bridge.requiredConfirmations - 1) ≤ s.node.best.length)
    (hmax : height + n < 2 ^ 32) :
    (s.fetch P bridge (3 * n)).task = .waiting (height + n) ∧
      ∃ delivered, (s.fetch P bridge (3 * n)).callbacks = s.callbacks ++ delivered ∧
        delivered.length = n ∧ ∀ k call, delivered[k]? = some call →
          ∃ hash block, s.node.best[height + k]? = some hash ∧
            s.node.index.lookup hash = some (block, height + k) ∧
            call = (bridge.blockPegins P block (height + k), height + k) := by
  induction n generalizing s height with
  | zero => exact ⟨htask, [], (List.append_nil _).symm, rfl, nofun⟩
  | succ n ih =>
    obtain ⟨call, ⟨hash, block, hsettled, hblock, hcall⟩, hfetch⟩ :=
      @fetch_three P bridge s height htask (by omega) (by omega)
    have hrest : s.fetch P bridge (3 * (n + 1)) = (s.fetch P bridge 3).fetch P bridge (3 * n) := by
      rw [fetch, play, Nat.mul_succ, Nat.add_comm, List.replicate_add, List.foldl_append]
      rfl
    obtain ⟨htask', delivered, hcallbacks, hlength, hdelivered⟩ := @ih
      { s with task := .waiting (height + 1), callbacks := s.callbacks ++ [call] } (height + 1) rfl
      (by simpa [Nat.add_assoc, Nat.add_comm 1] using hlen) (by omega)
    rw [hrest, hfetch]
    refine ⟨htask'.trans (by rw [Nat.add_assoc, Nat.add_comm 1]), call :: delivered, ?_, ?_, ?_⟩
    · rw [hcallbacks, List.append_assoc, List.singleton_append]
    · rw [List.length_cons, hlength]
    · intro k call' h
      cases k with
      | zero =>
        cases h
        exact ⟨hash, block, hsettled.1, hblock, hcall⟩
      | succ k =>
        rw [List.getElem?_cons_succ] at h
        rw [← Nat.add_assoc, Nat.add_right_comm]
        exact hdelivered k call' h

/-- The block with the deposit is streamed. -/
theorem confirmed_blocks_streamed_one :
    let s := (start (.toy false) 0).fetch .toy ⟨[[0x51]], 2⟩ (3 * 1)
    s.task = .waiting (0 + 1) ∧ ∃ delivered, s.callbacks = [] ++ delivered ∧
      delivered.length = 1 ∧ ∀ k call, delivered[k]? = some call →
        ∃ hash block, (BitcoinNode.toy false).best[0 + k]? = some hash ∧
          (BitcoinNode.toy false).index.lookup hash = some (block, 0 + k) ∧
          call = (Bridge.blockPegins .toy ⟨[[0x51]], 2⟩ block (0 + k), 0 + k) :=
  confirmed_blocks_streamed rfl (by decide) (by decide)

end PeginStream

end Alys
