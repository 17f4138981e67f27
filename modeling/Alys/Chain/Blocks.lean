import Alys.Chain.Ancestry

/-!
# Serving blocks by range

Model of `Chain::get_blocks` in `app/src/chain.rs`, which answers the `BlocksByRange` requests of
peers. Blocks are read from the index by height, and at the first height without an entry the rest
is collected by a walk from the head.

The index has one entry for each height, that of the block stored last. After a rollback the entries
above the head stay, and those below it may belong to another chain; the walk does not stop at the
requested count. `getBlocks_segment_iff` says for which requests the answer is right all the same.
-/

namespace Alys
open Lib

/-! ## The code -/

namespace Storage

/-- The walk of `get_blocks` from the head down to a height. -/
def blocksFromHead (s : Storage) (startHeight : Nat) :
    Nat → Hash256 → List SignedConsensusBlock → Except Failure (List SignedConsensusBlock)
  | 0, _, _ => .error .diverge
  | fuel + 1, current, blocks =>
    match s.getBlock current with
    | none => .ok blocks
    | some block =>
      if block.number < startHeight then .ok blocks
      else if block.message.parentHash = Hash256.zero then .ok (blocks ++ [block])
      else s.blocksFromHead startHeight fuel block.message.parentHash (blocks ++ [block])

/-- `put_block_by_height` for each block of the walk. -/
def putBlocksByHeight (P : Primitives) (blocks : List SignedConsensusBlock) (s : Storage) :
    Storage :=
  s.applyOps (blocks.map fun block => .putBlockByHeight block.number (block.canonicalRoot P))

end Storage

/-- The loop of `get_blocks`, from the offset `i` on. A failure to write to the index is only
logged. -/
def getBlocksLoop (P : Primitives) (env : Env) (headRef : BlockRef) (originalStartHeight : Nat) :
    Nat → Nat → List SignedConsensusBlock → ChainM (List SignedConsensusBlock)
  | 0, _, blocks => return blocks
  | remaining + 1, i, blocks =>
    if headRef.height < i then
      return blocks
    else do
      let currentHeight ← Action.lift (checkedU64 (originalStartHeight + i))
      let c ← Action.get
      match c.storage.getBlockByHeight currentHeight with
      | some block =>
        getBlocksLoop P env headRef originalStartHeight remaining (i + 1) (blocks ++ [block])
      | none => do
        let blocksFromHead ← Action.lift
          (c.storage.blocksFromHead currentHeight c.storage.fuel headRef.hash [])
        Action.modify fun c =>
          if env.commitOps then { c with storage := c.storage.putBlocksByHeight P blocksFromHead }
          else c
        return blocks ++ blocksFromHead.reverse

/-- `Chain::get_blocks`. -/
def getBlocks (P : Primitives) (env : Env) (startHeight requestedCount : Nat) :
    ChainM (List SignedConsensusBlock) := do
  let c ← Action.get
  let headRef ← Action.lift (okOr c.head (.error .chainError))
  getBlocksLoop P env headRef startHeight requestedCount 0 []

/-! ## The chain of a block -/

/-- A list with ascending numbers is determined by its members. -/
lemma eq_of_ascending {l l' : List SignedConsensusBlock}
    (h : l.Pairwise (·.number < ·.number)) (h' : l'.Pairwise (·.number < ·.number))
    (mem : ∀ b, b ∈ l ↔ b ∈ l') : l = l' := by
  have nodup : ∀ {l : List SignedConsensusBlock}, l.Pairwise (·.number < ·.number) → l.Nodup :=
    fun h => h.imp fun lt e => absurd (congrArg _ e) lt.ne
  refine List.Perm.eq_of_pairwise (fun b b' _ _ lt lt' => absurd lt' lt.not_gt) h h' ?_
  exact (List.perm_ext_iff_of_nodup (nodup h) (nodup h')).mpr mem

namespace Storage

/-- A block on the chain of another one: an ancestor, or the block itself. -/
def OnChain (s : Storage) (head : Hash256) (b : SignedConsensusBlock) : Prop :=
  ∃ h, s.getBlock h = some b ∧ Relation.ReflTransGen s.IsParent h head

lemma onChain_iff {s : Storage} {h : Hash256} {b b' : SignedConsensusBlock}
    (stored : s.getBlock h = some b) :
    s.OnChain h b' ↔ b' = b ∨ s.OnChain b.message.parentHash b' := by
  constructor
  · rintro ⟨h', stored', ancestor⟩
    cases ancestor with
    | refl => exact .inl (Option.some.inj (stored'.symm.trans stored))
    | tail rest parent =>
      obtain ⟨b'', stored'', rfl⟩ := parent
      cases stored''.symm.trans stored
      exact .inr ⟨h', stored', rest⟩
  · rintro (rfl | ⟨h', stored', rest⟩)
    · exact ⟨h, stored, .refl⟩
    · exact ⟨h', stored', rest.tail ⟨b, stored, rfl⟩⟩

/-- Nothing is on the chain of a block that is not stored. -/
lemma not_onChain {s : Storage} {h : Hash256} {b : SignedConsensusBlock}
    (none : s.getBlock h = none) : ¬ s.OnChain h b := by
  rintro ⟨h', stored, ancestor⟩
  cases ancestor with
  | refl => cases none.symm.trans stored
  | tail rest parent =>
    obtain ⟨b', stored', _⟩ := parent
    cases none.symm.trans stored'

/-- The blocks on the chain of `head` with numbers from `lo` to `hi`, exclusive, in ascending order.
-/
structure IsSegment (s : Storage) (head : Hash256) (lo hi : Nat)
    (blocks : List SignedConsensusBlock) : Prop where
  ascending : blocks.Pairwise (·.number < ·.number)
  mem : ∀ b, b ∈ blocks ↔ s.OnChain head b ∧ lo ≤ b.number ∧ b.number < hi

/-- `ChainTo s h chain`: from the genesis block on, `chain` leads to the block `h`. -/
inductive ChainTo (s : Storage) : Hash256 → List SignedConsensusBlock → Prop where
  | nil : ChainTo s Hash256.zero []
  | child {h b chain} (stored : s.getBlock h = some b)
    (rest : ChainTo s b.message.parentHash chain) (number : b.number = chain.length) :
    ChainTo s h (chain ++ [b])

namespace ChainTo

variable {P : Primitives} {s : Storage} {h : Hash256} {chain : List SignedConsensusBlock}
  {b : SignedConsensusBlock}

section

variable (e : ChainTo s h chain)

include e

lemma number {i : Nat} (hb : chain[i]? = some b) : b.number = i := by
  induction e with
  | nil => cases hb
  | child stored rest number ih =>
    rcases getElem?_concat_cases hb with hb | ⟨rfl, rfl⟩
    · exact ih hb
    · exact number

/-- Below the genesis block there is nothing. -/
lemma eq_nil (zero : s.getBlock Hash256.zero = none) (hh : h = Hash256.zero) : chain = [] := by
  cases e with
  | nil => rfl
  | child stored =>
    rw [hh, zero] at stored
    cases stored

/-- The chain consists of the block and its ancestors. -/
lemma mem_iff (zero : s.getBlock Hash256.zero = none) :
    b ∈ chain ↔ s.OnChain h b := by
  induction e with
  | nil => exact iff_of_false List.not_mem_nil (not_onChain zero)
  | child stored rest number ih =>
    rw [onChain_iff stored, ← ih, List.mem_append, List.mem_singleton, or_comm]

/-- The walk returns the chain down to a height, the highest block first. -/
lemma blocksFromHead_eq (zero : s.getBlock Hash256.zero = none) (startHeight : Nat) {fuel : Nat}
    (hfuel : chain.length < fuel) (blocks : List SignedConsensusBlock) :
    s.blocksFromHead startHeight fuel h blocks =
      .ok (blocks ++ (chain.drop startHeight).reverse) := by
  obtain ⟨fuel, rfl⟩ : ∃ n, fuel = n + 1 := ⟨fuel - 1, by omega⟩
  induction e generalizing fuel blocks with
  | nil => simp [blocksFromHead, zero]
  | @child h b chain stored rest number ih =>
    rw [List.length_append, List.length_singleton] at hfuel
    simp only [blocksFromHead, stored, number]
    split
    case isTrue lt =>
      rw [List.drop_eq_nil_of_le (by simp; omega)]
      simp
    case isFalse ge =>
      rw [List.drop_append_of_le_length (by omega)]
      split
      case isTrue parent => simp [rest.eq_nil zero parent]
      case isFalse =>
        obtain ⟨fuel, rfl⟩ : ∃ n, fuel = n + 1 := ⟨fuel - 1, by omega⟩
        rw [ih _ fuel (by omega)]
        simp

/-- A block stands at the position of its number. -/
lemma getElem? (mem : b ∈ chain) : chain[b.number]? = some b := by
  obtain ⟨i, hb⟩ := List.mem_iff_getElem?.mp mem
  rwa [e.number hb]

lemma ascending : chain.Pairwise (·.number < ·.number) := by
  rw [List.pairwise_iff_getElem]
  intro i j hi hj lt
  rwa [e.number (List.getElem?_eq_getElem hi), e.number (List.getElem?_eq_getElem hj)]

lemma mem_segment {lo count : Nat} :
    b ∈ (chain.drop lo).take count ↔ b ∈ chain ∧ lo ≤ b.number ∧ b.number < lo + count := by
  constructor
  · intro mem
    obtain ⟨i, hb⟩ := List.mem_iff_getElem?.mp mem
    rw [List.getElem?_take, List.getElem?_drop] at hb
    split at hb
    case isFalse => cases hb
    case isTrue lt =>
      have hnumber := e.number hb
      exact ⟨List.mem_of_getElem? hb, by omega, by omega⟩
  · rintro ⟨mem, le, lt⟩
    have hb := e.getElem? mem
    rw [← Nat.add_sub_cancel' le, ← List.getElem?_drop] at hb
    refine List.mem_of_getElem? (i := b.number - lo) ?_
    rw [List.getElem?_take, if_pos (by omega), hb]

/-- The segment of a chain. -/
lemma isSegment_iff (zero : s.getBlock Hash256.zero = none) {lo count : Nat}
    {blocks : List SignedConsensusBlock} :
    s.IsSegment h lo (min (lo + count) chain.length) blocks ↔
      blocks = (chain.drop lo).take count := by
  have ascending : ((chain.drop lo).take count).Pairwise (·.number < ·.number) :=
    e.ascending.sublist ((List.take_sublist _ _).trans (List.drop_sublist _ _))
  have mem : ∀ b, b ∈ (chain.drop lo).take count ↔
      s.OnChain h b ∧ lo ≤ b.number ∧ b.number < min (lo + count) chain.length := by
    intro b
    rw [e.mem_segment, ← e.mem_iff zero, lt_min_iff]
    constructor
    · rintro ⟨hb, le, lt⟩
      obtain ⟨lt', _⟩ := List.getElem?_eq_some_iff.mp (e.getElem? hb)
      exact ⟨hb, le, lt, lt'⟩
    · rintro ⟨hb, le, lt, _⟩
      exact ⟨hb, le, lt⟩
  constructor
  · intro h
    exact eq_of_ascending h.ascending ascending fun b => (h.mem b).trans (mem b).symm
  · rintro rfl
    exact ⟨ascending, mem⟩

end

end ChainTo

/-! ## The loop -/

/-- What the index has to be like at an offset of a request: the height is in the range of `u64`, an
entry is a block on the chain of the head, and if there is none although the head is not below that
height, the request goes up to the head. -/
def IndexedAt (s : Storage) (head : BlockRef) (startHeight count k : Nat) : Prop :=
  startHeight + k < 2 ^ 64 ∧
    match s.getBlockByHeight (startHeight + k) with
    | some b => s.OnChain head.hash b
    | none => startHeight + k ≤ head.height → head.height < startHeight + count

/-- The index is like this at each offset from `i` on that is reached. -/
def IndexedFrom (s : Storage) (head : BlockRef) (startHeight count i : Nat) : Prop :=
  ∀ k, i ≤ k → k < count → k ≤ head.height →
    (∀ j, i ≤ j → j < k → (s.getBlockByHeight (startHeight + j)).isSome) →
    s.IndexedAt head startHeight count k

variable {s : Storage} {head : BlockRef} {startHeight count i : Nat}

lemma IndexedFrom.here (h : s.IndexedFrom head startHeight count i) (lt : i < count)
    (le : i ≤ head.height) : s.IndexedAt head startHeight count i :=
  h i le_rfl lt le fun _ le lt => absurd lt le.not_gt

/-- After an offset with an entry the next one is reached. -/
lemma indexedFrom_iff_of_some {b : SignedConsensusBlock} (lt : i < count) (le : i ≤ head.height)
    (found : s.getBlockByHeight (startHeight + i) = some b) :
    s.IndexedFrom head startHeight count i ↔
      s.IndexedAt head startHeight count i ∧ s.IndexedFrom head startHeight count (i + 1) := by
  constructor
  · intro h
    refine ⟨h.here lt le, fun k hik hk hle reached => ?_⟩
    refine h k (by omega) hk hle fun j hij hjk => ?_
    rcases Nat.eq_or_lt_of_le hij with rfl | hij
    · rw [found, Option.isSome_some]
    · exact reached j hij hjk
  · rintro ⟨here, h⟩ k hik hk hle reached
    rcases Nat.eq_or_lt_of_le hik with rfl | hik
    · exact here
    · exact h k hik hk hle fun j hij => reached j (by omega)

/-- An offset without an entry is the last one. -/
lemma indexedFrom_iff_of_none (lt : i < count) (le : i ≤ head.height)
    (missing : s.getBlockByHeight (startHeight + i) = none) :
    s.IndexedFrom head startHeight count i ↔ s.IndexedAt head startHeight count i := by
  refine ⟨fun h => h.here lt le, fun here k hik _ _ reached => ?_⟩
  rcases Nat.eq_or_lt_of_le hik with rfl | hik
  · exact here
  · have found := reached i le_rfl hik
    rw [missing] at found
    cases found

end Storage

section Loop

variable {P : Primitives} {env : Env} {headRef : BlockRef} {start remaining i : Nat}
  {blocks : List SignedConsensusBlock} {c : Chain}

/-- One step of the loop. -/
lemma getBlocksLoop_succ :
    (getBlocksLoop P env headRef start (remaining + 1) i blocks c).1 =
      if headRef.height < i then .ok blocks
      else if start + i < 2 ^ 64 then
        match c.storage.getBlockByHeight (start + i) with
        | some block =>
          (getBlocksLoop P env headRef start remaining (i + 1) (blocks ++ [block]) c).1
        | none => do
          let rest ← c.storage.blocksFromHead (start + i) c.storage.fuel headRef.hash []
          return blocks ++ rest.reverse
      else .error .panic := by
  rw [getBlocksLoop, Action.ite_apply]
  by_cases above : headRef.height < i
  · rw [if_pos above, if_pos above]
    rfl
  · rw [if_neg above, if_neg above, Action.bind_apply, Action.lift_apply]
    by_cases lt : start + i < 2 ^ 64
    · rw [checkedU64_of_lt lt, if_pos lt]
      simp only [Action.bind_apply, Action.get_apply]
      cases c.storage.getBlockByHeight (start + i) with
      | some block => rfl
      | none =>
        simp only [Action.bind_apply, Action.lift_apply]
        cases c.storage.blocksFromHead (start + i) c.storage.fuel headRef.hash [] with
        | error e => rfl
        | ok rest => rfl
    · rw [checkedU64_of_not_lt lt, if_neg lt]

/-- The loop only appends. -/
lemma getBlocksLoop_prefix {r : List SignedConsensusBlock}
    (e : (getBlocksLoop P env headRef start remaining i blocks c).1 = .ok r) : blocks <+: r := by
  induction remaining generalizing i blocks with
  | zero =>
    cases e
    exact List.prefix_rfl
  | succ remaining ih =>
    rw [getBlocksLoop_succ] at e
    split at e
    case isTrue =>
      cases e
      exact List.prefix_rfl
    case isFalse =>
      split at e
      case isFalse => cases e
      case isTrue =>
        split at e
        case h_1 block _ => exact (List.prefix_append _ _).trans (ih e)
        case h_2 =>
          obtain ⟨rest, _, e⟩ := bind_eq_ok_iff.mp e
          cases e
          exact List.prefix_append _ _

/-- The loop, from an offset up to which it found the segment. -/
lemma getBlocksLoop_iff {chain : List SignedConsensusBlock} {count : Nat}
    (zero : c.storage.getBlock Hash256.zero = none)
    (hchain : c.storage.ChainTo headRef.hash chain) (hlength : chain.length = headRef.height + 1)
    (hfuel : chain.length < c.storage.fuel)
    (indexed : ∀ {height b}, c.storage.getBlockByHeight height = some b → b.number = height)
    (hcount : i + remaining = count) (hi : i = 0 ∨ start + i ≤ chain.length) :
    (getBlocksLoop P env headRef start remaining i ((chain.drop start).take i) c).1 =
        .ok ((chain.drop start).take count) ↔
      c.storage.IndexedFrom headRef start count i := by
  induction remaining generalizing i with
  | zero =>
    cases hcount
    exact iff_of_true rfl fun k le lt => absurd lt le.not_gt
  | succ remaining ih =>
    rw [getBlocksLoop_succ]
    by_cases above : headRef.height < i
    · -- the loop stops above the height of the head, with the whole chain
      refine iff_of_true ?_ fun k le _ le' => absurd (above.trans_le le) le'.not_gt
      rw [if_pos above, List.take_of_length_le (by rw [List.length_drop]; omega),
        List.take_of_length_le (by rw [List.length_drop]; omega)]
    by_cases lt : start + i < 2 ^ 64
    · rw [if_neg above, if_pos lt]
      cases hfound : c.storage.getBlockByHeight (start + i) with
      | none =>
        -- the walk from the head returns the rest of the chain
        have hrest : (chain.drop start).take i ++ chain.drop (start + i) = chain.drop start := by
          rw [← List.drop_drop, List.take_append_drop]
        rw [Storage.indexedFrom_iff_of_none (by omega) (by omega) hfound]
        have hall : chain.drop start = (chain.drop start).take count ↔
            headRef.height < start + count := by
          rw [eq_comm, List.take_eq_self_iff, List.length_drop]
          omega
        simp only [hchain.blocksFromHead_eq zero _ hfuel, Storage.IndexedAt, hfound]
        change Except.ok (_ ++ ([] ++ (chain.drop (start + i)).reverse).reverse) = _ ↔ _
        rw [List.nil_append, List.reverse_reverse, hrest, Except.ok.injEq, hall]
        exact ⟨fun h => ⟨lt, fun _ => h⟩, fun h => by have := h.2; omega⟩
      | some b =>
        dsimp only
        have hat : c.storage.IndexedAt headRef start count i ↔ b ∈ chain := by
          simp only [Storage.IndexedAt, hfound, lt, true_and, hchain.mem_iff zero]
        rw [Storage.indexedFrom_iff_of_some (by omega) (by omega) hfound, hat]
        by_cases hb : b ∈ chain
        · have hget := hchain.getElem? hb
          rw [indexed hfound] at hget
          obtain ⟨hlt, _⟩ := List.getElem?_eq_some_iff.mp hget
          have htake : (chain.drop start).take i ++ [b] = (chain.drop start).take (i + 1) := by
            rw [List.take_add_one, List.getElem?_drop, hget, Option.toList_some]
          rw [and_iff_right hb, ← ih (by omega) (.inr (by omega)), htake]
        · refine iff_of_false (fun e => hb ?_) fun h => hb h.1
          have hprefix := getBlocksLoop_prefix e
          have mem : b ∈ (chain.drop start).take count := hprefix.subset (by simp)
          exact (hchain.mem_segment.mp mem).1
    · rw [if_neg above, if_neg lt]
      exact iff_of_false nofun fun h => lt (h.here (by omega) (by omega)).1

end Loop

/-! ## Reachable stores -/

/-- An entry of the index after an import is that of the block, or was there before. -/
lemma Storage.blockByHeight_extend_cases {P : Primitives} {s : Storage} {b : SignedConsensusBlock}
    {fees height : Nat} {advances : Bool} {root : Hash256}
    (e : (s.extend P b fees advances).blockByHeight.lookup height = some root) :
    height = b.number ∧ root = b.canonicalRoot P ∨ s.blockByHeight.lookup height = some root := by
  rcases lookup_insert_eq_some.mp e with h | ⟨_, e⟩
  · exact .inl h
  · exact .inr e

/-- Every stored block is the genesis block, or its parent is stored and has the number before its
own; the entries of the index have the number of their height. -/
structure Rooted (P : Primitives) (num : ExecutionBlockHash → Nat) (s : Storage) : Prop where
  keyed : ∀ {h b}, s.getBlock h = some b → b.canonicalRoot P = h
  zero : s.getBlock Hash256.zero = none
  parents : ∀ {h b}, s.getBlock h = some b →
    b.number = 0 ∧ b.message.parentHash = Hash256.zero ∨
      ∃ p, s.getBlock b.message.parentHash = some p ∧ b.number = p.number + 1
  numbered : ∀ {h b}, s.getBlock h = some b →
    num b.message.executionPayload.blockHash = b.number
  indexed : ∀ {height root}, s.blockByHeight.lookup height = some root →
    ∃ b, s.getBlock root = some b ∧ b.number = height
  head : ∃ head b, s.head = some head ∧ s.getBlock head.hash = some b ∧ head.height = b.number

namespace Rooted

variable {P : Primitives} {num : ExecutionBlockHash → Nat} {s : Storage}
  {b g : SignedConsensusBlock} {h : Hash256}

section

variable (hs : Rooted P num s)

include hs

lemma chainTo (stored : s.getBlock h = some b) :
    ∃ chain, s.ChainTo h chain ∧ chain.length = b.number + 1 := by
  induction hn : b.number generalizing h b with
  | zero =>
    rcases hs.parents stored with ⟨number, parent⟩ | ⟨p, _, number⟩
    · exact ⟨[] ++ [b], .child stored (by rw [parent]; exact .nil) number, rfl⟩
    · omega
  | succ n ih =>
    rcases hs.parents stored with ⟨number, _⟩ | ⟨p, hp, number⟩
    · omega
    · obtain ⟨chain, hchain, hlength⟩ := ih hp (by omega)
      exact ⟨chain ++ [b], .child stored hchain (by omega), by simp [hlength]⟩

lemma length_lt_fuel {chain : List SignedConsensusBlock} (hchain : s.ChainTo h chain) :
    chain.length < s.fuel := by
  have stored : ∀ b ∈ chain, s.getBlock (b.canonicalRoot P) = some b := by
    intro b mem
    obtain ⟨h', hb, _⟩ := (hchain.mem_iff hs.zero).mp mem
    rwa [hs.keyed hb]
  refine Storage.length_lt_fuel (P := P) ?_ stored
  rw [List.Nodup, List.pairwise_map]
  refine hchain.ascending.imp_of_mem fun {b b'} hb hb' lt e => lt.ne ?_
  rw [Option.some.inj ((stored b hb).symm.trans (e ▸ stored b' hb'))]

lemma number_of_getBlockByHeight {height : Nat} (e : s.getBlockByHeight height = some b) :
    b.number = height := by
  obtain ⟨root, hroot, hb⟩ := Option.bind_eq_some_iff.mp e
  obtain ⟨b', hb', number⟩ := hs.indexed hroot
  cases hb.symm.trans hb'
  exact number

/-- Fewer entries of the index. -/
lemma reindex {index : Map Nat Hash256} (sub : ∀ height root, index.lookup height = some root →
      s.blockByHeight.lookup height = some root) :
    Rooted P num { s with blockByHeight := index } where
  keyed := hs.keyed
  zero := hs.zero
  parents := hs.parents
  numbered := hs.numbered
  indexed e := hs.indexed (sub _ _ e)
  head := hs.head

lemma rollback {target : SignedConsensusBlock} {height : Nat} {powBlock}
    (htarget : s.getBlockByHeight height = some target) :
    Rooted P num (s.rollback P target powBlock) where
  keyed := hs.keyed
  zero := hs.zero
  parents := hs.parents
  numbered := hs.numbered
  indexed := hs.indexed
  head := by
    obtain ⟨root, _, hb⟩ := Option.bind_eq_some_iff.mp htarget
    refine ⟨target.blockRef P, target, rfl, ?_, rfl⟩
    change s.getBlock (target.canonicalRoot P) = some target
    rw [hs.keyed hb, hb]

/-- The import of a block on a stored parent, with the number after that of the parent. -/
lemma extend (hP : RootsSound P) {p : SignedConsensusBlock}
    (hp : s.getBlock b.message.parentHash = some p) (number : b.number = p.number + 1)
    (hnum : num b.message.executionPayload.blockHash = b.number) (fees : Nat) {advances : Bool} :
    Rooted P num (s.extend P b fees advances) := by
  -- a block that is replaced has the same root, and so the same number
  have retains : ∀ {h b'}, s.getBlock h = some b' →
      ∃ b'', (s.extend P b fees advances).getBlock h = some b'' ∧ b''.number = b'.number := by
    intro h b' e
    rw [Storage.Linear.getBlock_extend]
    split
    case isTrue eq => exact ⟨b, rfl, hP.height (eq.symm.trans (hs.keyed e).symm)⟩
    case isFalse => exact ⟨b', e, rfl⟩
  have hself : (s.extend P b fees advances).getBlock (b.canonicalRoot P) = some b :=
    Storage.getBlock_extend_self
  constructor
  case keyed =>
    intro h b' e
    rcases Storage.getBlock_extend_cases e with ⟨rfl, rfl⟩ | ⟨_, e⟩
    · rfl
    · exact hs.keyed e
  case zero => exact Storage.getBlock_extend_zero hP hs.zero
  case parents =>
    intro h b' e
    rcases Storage.getBlock_extend_cases e with ⟨rfl, rfl⟩ | ⟨_, e⟩
    · obtain ⟨p', hp', e'⟩ := retains hp
      exact .inr ⟨p', hp', by rw [number, e']⟩
    · rcases hs.parents e with genesis | ⟨p', hp', number'⟩
      · exact .inl genesis
      · obtain ⟨p'', hp'', e'⟩ := retains hp'
        exact .inr ⟨p'', hp'', by rw [number', e']⟩
  case numbered =>
    intro h b' e
    rcases Storage.getBlock_extend_cases e with ⟨rfl, _⟩ | ⟨_, e⟩
    · exact hnum
    · exact hs.numbered e
  case indexed =>
    intro height root e
    rcases Storage.blockByHeight_extend_cases e with ⟨rfl, rfl⟩ | e
    · exact ⟨b, hself, rfl⟩
    · obtain ⟨b', hb', number'⟩ := hs.indexed e
      obtain ⟨b'', hb'', e'⟩ := retains hb'
      exact ⟨b'', hb'', e'.trans number'⟩
  case head =>
    cases advances with
    | true => exact ⟨b.blockRef P, b, rfl, hself, rfl⟩
    | false =>
      obtain ⟨head, b', hhead, hb', hheight⟩ := hs.head
      obtain ⟨b'', hb'', e'⟩ := retains hb'
      exact ⟨head, b'', hhead, hb'', hheight.trans e'.symm⟩

end

/-- The store with the genesis block. -/
lemma ofGenesis (hP : RootsSound P) (hg : g.IsGenesis)
    (hnum : num g.message.executionPayload.blockHash = 0) (fees : Nat) :
    Rooted P num (Storage.empty.extend P g fees true) := by
  have hget : ∀ {h b}, (Storage.empty.extend P g fees true).getBlock h = some b →
      b = g ∧ h = g.canonicalRoot P := by
    intro h b e
    rcases Storage.getBlock_extend_cases e with ⟨rfl, rfl⟩ | ⟨_, e⟩
    · exact ⟨rfl, rfl⟩
    · cases e
  have hself : (Storage.empty.extend P g fees true).getBlock (g.canonicalRoot P) = some g :=
    Storage.getBlock_extend_self
  constructor
  case keyed =>
    intro h b e
    obtain ⟨rfl, rfl⟩ := hget e
    rfl
  case zero => exact Storage.getBlock_extend_zero hP rfl
  case parents =>
    intro h b e
    obtain ⟨rfl, _⟩ := hget e
    exact .inl ⟨hg.number, hg.parent⟩
  case numbered =>
    intro h b e
    obtain ⟨rfl, _⟩ := hget e
    rw [hnum, hg.number]
  case indexed =>
    intro height root e
    rcases Storage.blockByHeight_extend_cases e with ⟨rfl, rfl⟩ | e
    · exact ⟨g, hself, rfl⟩
    · cases e
  case head => exact ⟨g.blockRef P, g, rfl, hself, rfl⟩

end Rooted

/-- In every run of imports and rollbacks with successful commits the store is rooted, and the head
in memory is the stored one. -/
lemma run_rooted {P : Primitives} {cfg : ChainConfig} {num : ExecutionBlockHash → Nat} {env : Env}
    {spec : ChainSpec} {payload : ExecutionPayload} {w : UtxoManager} {c₀ c : Chain}
    (hP : RootsSound P) (hnum : num payload.blockHash = 0)
    (start : storeGenesis P cfg env spec payload (Chain.new .empty w) = (.ok (), c₀))
    (run : ReorgRun P cfg (fun _ env _ => env.commitOps = true ∧ env.Numbers num)
      (fun _ env _ => env.commitOps = true) c₀ c) :
    Rooted P num c.storage ∧ c.head = c.storage.head := by
  obtain ⟨g, fees, _, hg, hpayload, _, _, rfl⟩ := storeGenesis_ok start
  rw [← hpayload] at hnum
  have init : Rooted P num (Chain.ofGenesis P env g fees w).storage ∧
      (Chain.ofGenesis P env g fees w).head = (Chain.ofGenesis P env g fees w).storage.head :=
    ⟨.ofGenesis hP hg hnum fees, rfl⟩
  refine run.invariant (I := fun c => Rooted P num c.storage ∧ c.head = c.storage.head) init ?_
  rintro c (⟨env, b⟩ | ⟨env, height⟩) ⟨hs, hhead⟩ ok
  · simp only [Reorg.apply]
    obtain ⟨e, _, e'⟩ | ⟨missing, fees, _, valid, payload, executed, e, e', _⟩ :=
      @acceptBlock_stores P cfg env b c
    · rw [e, e' ok.1]
      exact ⟨hs, hhead⟩
    · obtain ⟨prev, hprev, hpayload⟩ := (checkParent_eq_ok_iff.mp valid.parent).2.2.1
      obtain ⟨next, hnumb⟩ := ok.2 _ _ payload executed
      rw [hpayload, hs.numbered hprev] at next
      rw [e, e']
      exact ⟨hs.extend hP hprev next hnumb fees, rfl⟩
  · simp only [Reorg.apply]
    obtain e | ⟨target, powBlock, htarget, _, e⟩ := @rollbackHead_cases P env height c
    · rw [e]
      exact ⟨hs, hhead⟩
    · have ok : env.commitOps = true := ok
      rw [e, ok]
      exact ⟨hs.rollback htarget, rfl⟩

/-- The node with another index by height. -/
def Chain.reindexed (c : Chain) (index : Map Nat Hash256) : Chain :=
  { c with storage := { c.storage with blockByHeight := index } }

/-- After every run of imports and rollbacks, and with any entries of the index missing, a request
is answered with the segment of the head's chain if and only if the index is right at the offsets
that are reached. -/
theorem getBlocks_segment_iff {P : Primitives} {cfg : ChainConfig}
    {num : ExecutionBlockHash → Nat} {env : Env} {spec : ChainSpec} {payload : ExecutionPayload}
    {w : UtxoManager} {c₀ c : Chain} {index : Map Nat Hash256} (hP : RootsSound P)
    (hnum : num payload.blockHash = 0)
    (start : storeGenesis P cfg env spec payload (Chain.new .empty w) = (.ok (), c₀))
    (run : ReorgRun P cfg (fun _ env _ => env.commitOps = true ∧ env.Numbers num)
      (fun _ env _ => env.commitOps = true) c₀ c)
    (sub : ∀ height root, index.lookup height = some root →
      c.storage.blockByHeight.lookup height = some root) (env' : Env) (startHeight count : Nat) :
    ∃ head, c.head = some head ∧
      ((∃ blocks, (getBlocks P env' startHeight count (c.reindexed index)).1 = .ok blocks ∧
          (c.reindexed index).storage.IsSegment head.hash startHeight
            (min (startHeight + count) (head.height + 1)) blocks) ↔
        (c.reindexed index).storage.IndexedFrom head startHeight count 0) := by
  obtain ⟨hs, hhead⟩ := run_rooted hP hnum start run
  have hs' : Rooted P num (c.reindexed index).storage := hs.reindex sub
  obtain ⟨head, b, hhead', hb, hheight⟩ := hs'.head
  replace hhead : c.head = some head := hhead.trans hhead'
  refine ⟨head, hhead, ?_⟩
  obtain ⟨chain, hchain, hlength⟩ := hs'.chainTo hb
  rw [← hheight] at hlength
  have hget : getBlocks P env' startHeight count (c.reindexed index) =
      getBlocksLoop P env' head startHeight count 0 [] (c.reindexed index) := by
    simp only [getBlocks, Action.bind_apply, Action.get_apply, Action.lift_apply, Chain.reindexed,
      hhead, okOr]
  have hloop : (getBlocksLoop P env' head startHeight count 0 [] (c.reindexed index)).1 =
      .ok ((chain.drop startHeight).take count) ↔ _ :=
    getBlocksLoop_iff hs'.zero hchain hlength (hs'.length_lt_fuel hchain)
      hs'.number_of_getBlockByHeight (Nat.zero_add count) (.inl rfl)
  rw [hget, ← hloop, ← hlength]
  simp only [hchain.isSegment_iff hs'.zero]
  constructor
  · rintro ⟨blocks, e, rfl⟩
    exact e
  · intro e
    exact ⟨_, e, rfl⟩

/-- The run of `toyRolledBack`. -/
lemma Chain.toyReorg_rolledBack :
    ReorgRun .toy (.toy 1 0) (fun _ env _ => env.commitOps = true ∧ env.Numbers List.length)
      (fun _ env _ => env.commitOps = true) Chain.toyGenesis (Chain.toyReorg toyRolledBack) := by
  have ok : Env.toyNumbered.commitOps = true ∧ Env.toyNumbered.Numbers List.length :=
    ⟨rfl, Env.toyNumbered_numbers⟩
  exact .snoc (.snoc (.snoc .refl (Reorg.accept .toyNumbered (.toyNumbered 1)) ok)
    (Reorg.accept .toyNumbered (.toyNumberedPow 2)) ok) (Reorg.rollback .toyNumbered 1) ok.1

/-- After the rollback, the head alone. -/
theorem getBlocks_segment_head :
    ∃ head, (Chain.toyReorg toyRolledBack).head = some head ∧
      ∃ blocks, (getBlocks .toy .toyNumbered 1 1 (Chain.toyReorg toyRolledBack)).1 = .ok blocks ∧
        (Chain.toyReorg toyRolledBack).storage.IsSegment head.hash 1
          (min (1 + 1) (head.height + 1)) blocks := by
  obtain ⟨head, hhead, hiff⟩ := getBlocks_segment_iff Primitives.toy_rootsSound rfl
    Chain.toyGenesis_eq Chain.toyReorg_rolledBack (fun _ _ e => e) .toyNumbered 1 1
  refine ⟨head, hhead, hiff.mpr fun k _ lt _ _ => ?_⟩
  cases Nat.lt_one_iff.mp lt
  have hfound : (Chain.toyReorg toyRolledBack).storage.getBlockByHeight 1 =
      some (.toyNumbered 1) := by decide
  have hstored : (Chain.toyReorg toyRolledBack).storage.getBlock (toyRoot 1 0) =
      some (.toyNumbered 1) := by decide
  have hheight : (Chain.toyReorg toyRolledBack).head = some ⟨toyRoot 1 0, 1⟩ := by decide
  cases hhead.symm.trans hheight
  refine ⟨by decide, ?_⟩
  change match (Chain.toyReorg toyRolledBack).storage.getBlockByHeight 1 with
    | some b => (Chain.toyReorg toyRolledBack).storage.OnChain (toyRoot 1 0) b
    | none => 1 ≤ 1 → 1 < 1 + 1
  rw [hfound]
  exact ⟨toyRoot 1 0, hstored, .refl⟩

/-- After the rollback, two blocks from the head on: the answer has the block above the head. -/
theorem getBlocks_segment_fails :
    ¬ ∀ (P : Primitives) (cfg : ChainConfig) (num : ExecutionBlockHash → Nat) (env : Env)
      (spec : ChainSpec) (payload : ExecutionPayload) (w : UtxoManager) (c₀ c : Chain)
      (index : Map Nat Hash256) (env' : Env) (startHeight count : Nat),
      RootsSound P → num payload.blockHash = 0 →
      storeGenesis P cfg env spec payload (Chain.new .empty w) = (.ok (), c₀) →
      ReorgRun P cfg (fun _ env _ => env.commitOps = true ∧ env.Numbers num)
        (fun _ env _ => env.commitOps = true) c₀ c →
      (∀ height root, index.lookup height = some root →
        c.storage.blockByHeight.lookup height = some root) →
      ∃ head blocks, c.head = some head ∧
        (getBlocks P env' startHeight count (c.reindexed index)).1 = .ok blocks ∧
        (c.reindexed index).storage.IsSegment head.hash startHeight
          (min (startHeight + count) (head.height + 1)) blocks := by
  intro all
  obtain ⟨head, blocks, hhead, e, hsegment⟩ := all _ _ List.length _ _ _ _ _ _ _ .toyNumbered 1 2
    Primitives.toy_rootsSound rfl Chain.toyGenesis_eq Chain.toyReorg_rolledBack (fun _ _ e => e)
  have hanswer : (getBlocks .toy .toyNumbered 1 2 (Chain.toyReorg toyRolledBack)).1 =
      .ok [.toyNumbered 1, .toyNumberedPow 2] := rfl
  have hheight : (Chain.toyReorg toyRolledBack).head = some ⟨toyRoot 1 0, 1⟩ := by decide
  cases hhead.symm.trans hheight
  cases e.symm.trans hanswer
  have stale := (hsegment.mem (.toyNumberedPow 2)).mp (by simp)
  exact absurd stale.2.2 (by decide)

end Alys
