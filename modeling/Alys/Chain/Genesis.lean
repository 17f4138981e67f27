import Alys.Chain.Finality

/-!
# From the genesis block

Model of `store_genesis` in `app/src/chain.rs` and of `SignedConsensusBlock::genesis` in
`app/src/block.rs`, and what the store looks like in every run that starts there, without rollbacks
and with a disk that answers.

Nothing in `process_block` checks that the parent of a block is the head: the block has to lie above
the head and its parent has to be stored. That the parent is the head follows from the execution
layer, which yields the receipts of a payload only if it has imported it, on top of the payload of
the parent and with the next number.
-/

namespace Alys
open Lib

/-- `Address::zero()`. -/
def Address.zero : Address := List.replicate 20 0

/-- The fields of `ChainSpec` that the genesis block takes over. -/
structure ChainSpec where
  bits : Nat
  chainId : Nat

/-- `SignedConsensusBlock::genesis`. -/
def SignedConsensusBlock.genesis (P : Primitives) (chainSpec : ChainSpec)
    (executionPayload : ExecutionPayload) : Except Failure SignedConsensusBlock :=
  if executionPayload.blockNumber ≠ 0 then
    .error .panic
  else
    .ok
      { message :=
          { parentHash := Hash256.zero
            slot := 0
            auxpowHeader := some
              { rangeStart := Hash256.zero
                rangeEnd := Hash256.zero
                bits := chainSpec.bits
                chainId := chainSpec.chainId
                height := 0
                auxpow := none
                feeRecipient := Address.zero }
            executionPayload
            pegins := []
            pegoutPaymentProposal := none
            finalizedPegouts := [] }
        signature := .new P }

/-- `Chain::store_genesis`, with the payload that the execution layer returns for height 0. -/
def storeGenesis (P : Primitives) (cfg : ChainConfig) (env : Env) (chainSpec : ChainSpec)
    (executionPayload : ExecutionPayload) : ChainM Unit := do
  let genesisBlock ← Action.lift (SignedConsensusBlock.genesis P chainSpec executionPayload)
  let c ← Action.get
  if (c.storage.getBlock (genesisBlock.canonicalRoot P)).isSome then
    return
  else
    importVerifiedBlockNoCommit P cfg env genesisBlock

/-- What is used of a genesis block. -/
structure SignedConsensusBlock.IsGenesis (g : SignedConsensusBlock) : Prop where
  number : g.number = 0
  parent : g.message.parentHash = Hash256.zero
  header : ∃ pow, g.message.auxpowHeader = some pow ∧ pow.height = 0 ∧ pow.rangeEnd = Hash256.zero
  pegins : g.message.pegins = []
  proposal : g.message.pegoutPaymentProposal = none

lemma SignedConsensusBlock.genesis_ok {P spec payload g}
    (e : SignedConsensusBlock.genesis P spec payload = .ok g) :
    g.IsGenesis ∧ g.message.executionPayload = payload ∧ g.message.finalizedPegouts = [] := by
  unfold SignedConsensusBlock.genesis at e
  split at e
  case isTrue => cases e
  case isFalse h =>
    cases e
    exact ⟨⟨not_not.mp h, rfl, ⟨_, rfl, rfl, rfl⟩, rfl, rfl⟩, rfl, rfl⟩

/-- A node that has just stored its genesis block. -/
def Chain.ofGenesis (P : Primitives) (env : Env) (g : SignedConsensusBlock) (fees : Nat)
    (w : UtxoManager) : Chain :=
  { Chain.new (Storage.empty.extend P g fees true) w with imported := [⟨.empty, g, env⟩] }

variable {g : SignedConsensusBlock}

/-- A validator and another node store the genesis block in the same way. -/
lemma importPegs_genesis {P cfg env} (h : g.IsGenesis) (hfin : g.message.finalizedPegouts = [])
    (c : Chain) :
    importPegs P cfg env g c = (.ok (), c) := by
  simp only [importPegs, h.pegins, h.proposal, hfin]
  rfl

/-- The store of a genesis block. -/
lemma storeBlock_genesis {P env fees} (h : g.IsGenesis) {w : UtxoManager} {c : Chain}
    (e : storeBlock P env g [.putBlockFees (g.canonicalRoot P) fees]
      (Chain.new .empty w) = (.ok (), c)) :
    c = Chain.ofGenesis P env g fees w := by
  obtain ⟨pow, hpow, _, hend⟩ := h.header
  simp only [storeBlock, Action.bind_apply, updateHeadRefOps, Action.get_apply, Action.ite_apply,
    hpow, finalize, hend] at e
  rw [if_neg (by simp [Chain.new, Storage.empty])] at e
  simp only [Action.modify_apply, Action.pure_apply, ne_eq, not_true_eq_false, false_and, if_false,
    commitImport, Action.ite_apply] at e
  by_cases hcommit : env.commitOps = true
  · simp only [if_pos hcommit, updateBlockHashCache, h.number, if_true] at e
    cases e
    simp only [Chain.ofGenesis, Chain.new, Storage.extend, hpow]
    rfl
  · simp only [if_neg hcommit, Action.fail_apply] at e
    cases e

/-- A node that stored its genesis block on an empty store. -/
lemma storeGenesis_ok {P cfg env spec payload w c}
    (e : storeGenesis P cfg env spec payload (Chain.new .empty w) = (.ok (), c)) :
    ∃ g fees execution, g.IsGenesis ∧ g.message.executionPayload = payload ∧
      env.getBlockAndReceipts payload.blockHash = .ok execution ∧
      totalFees execution.1 execution.2 = .ok fees ∧ c = Chain.ofGenesis P env g fees w := by
  simp only [storeGenesis, Action.bind_apply, Action.lift_apply] at e
  cases hgen : SignedConsensusBlock.genesis P spec payload with
  | error => simp [hgen] at e
  | ok g =>
    obtain ⟨h, hpayload, hfin⟩ := SignedConsensusBlock.genesis_ok hgen
    obtain ⟨pow, hpow, _⟩ := h.header
    have hnone : (Storage.empty.getBlock (g.canonicalRoot P)).isSome = false := rfl
    simp only [hgen, Action.get_apply, Action.ite_apply, Chain.new, hnone, Bool.false_eq_true,
      if_false, importVerifiedBlockNoCommit, Action.bind_apply, Action.lift_apply, hpayload] at e
    cases hexec : env.getBlockAndReceipts payload.blockHash with
    | error => simp [hexec] at e
    | ok execution =>
      obtain ⟨executionBlock, executionReceipts⟩ := execution
      simp only [hexec] at e
      cases hfees : accumulateFees P Storage.empty g executionBlock executionReceipts with
      | error => simp [hfees] at e
      | ok ops =>
        obtain ⟨fees, rfl⟩ := accumulateFees_ok hfees
        obtain ⟨blockFees, htotal, hsum⟩ := accumulateFees_eq_ok hfees
        rw [hpow, Option.isSome_some, if_pos rfl, Nat.zero_add] at hsum
        subst hsum
        refine ⟨g, fees, (executionBlock, executionReceipts), h, hpayload, rfl, htotal, ?_⟩
        simp only [hfees, importPegs_genesis h hfin, ite_self] at e
        exact storeBlock_genesis h e

/-! ## A single chain -/

/-- A block of a chain is the highest one with an AuxPow header, and the store refers to it. -/
structure LatestPow (P : Primitives) (s : Storage) (chain : List SignedConsensusBlock)
    (p : SignedConsensusBlock) : Prop where
  mem : p ∈ chain
  ref : s.latestPowBlock = some (p.blockRef P)
  header : p.message.auxpowHeader.isSome = true
  highest : ∀ b ∈ chain, b.message.auxpowHeader.isSome = true → b.number ≤ p.number

/-- The store holds a single chain, and the height index, the head, the reference to the latest
AuxPow and the accumulated fees are those of its blocks. -/
structure SingleChain (P : Primitives) (s : Storage) (head : Option BlockRef)
    (chain : List SignedConsensusBlock) : Prop where
  linear : s.Linear P chain
  nonempty : chain ≠ []
  index : ∀ n, s.blockByHeight.lookup n = chain[n]?.map (·.canonicalRoot P)
  head : head = s.head
  latestPow : ∃ p, LatestPow P s chain p
  fees : ∀ b ∈ chain, (s.blockFees.lookup (b.canonicalRoot P)).isSome = true

/-- The next block is the highest one with a header, or leaves that one in place. -/
lemma LatestPow.extend {P s chain} {p b : SignedConsensusBlock} (h : LatestPow P s chain p)
    (above : p.number < b.number) (fees : Nat) :
    LatestPow P (s.extend P b fees true) (chain ++ [b])
      (if b.message.auxpowHeader.isSome then b else p) := by
  cases hpow : b.message.auxpowHeader.isSome with
  | true =>
    rw [if_pos rfl]
    refine ⟨by simp, by simp [Storage.extend, hpow], hpow, fun b' mem hb' => ?_⟩
    rcases List.mem_append.mp mem with mem | mem
    · exact (h.highest b' mem hb').trans above.le
    · rw [List.mem_singleton.mp mem]
  | false =>
    rw [if_neg Bool.false_ne_true]
    refine ⟨by simp [h.mem], by simp [Storage.extend, hpow, h.ref], h.header, fun b' mem hb' => ?_⟩
    rcases List.mem_append.mp mem with mem | mem
    · exact h.highest b' mem hb'
    · rw [List.mem_singleton.mp mem, hpow] at hb'
      cases hb'

lemma LatestPow.ofGenesis {P} (hg : g.IsGenesis) (fees : Nat) :
    LatestPow P (Storage.empty.extend P g fees true) [g] g := by
  obtain ⟨pow, hpow, _⟩ := hg.header
  refine ⟨by simp, by simp [Storage.extend, hpow], by simp [hpow], fun b mem _ => ?_⟩
  rw [List.mem_singleton.mp mem]

namespace SingleChain

variable {P : Primitives} {s : Storage} {head : Option BlockRef}
  {chain : List SignedConsensusBlock} {b g : SignedConsensusBlock}

lemma ofGenesis (hP : RootsSound P) (hg : g.IsGenesis) (fees : Nat) :
    SingleChain P (Storage.empty.extend P g fees true) (some (g.blockRef P)) [g] := by
  constructor
  case linear =>
    exact .genesisOnly rfl rfl hg.number hg.parent (hP.nonzero _)
  case nonempty => simp
  case index =>
    intro n
    simp only [Storage.extend, hg.number]
    cases n with
    | zero => rfl
    | succ n => rfl
  case head => rfl
  case latestPow => exact ⟨g, .ofGenesis hg fees⟩
  case fees =>
    intro b mem
    rw [List.mem_singleton.mp mem]
    simp [Storage.extend]

/-- The genesis block finalizes itself. -/
lemma finalized_ofGenesis (hP : RootsSound P) (hg : g.IsGenesis) (fees : Nat) :
    (Storage.empty.extend P g fees true).getLatestFinalizedBlockRef P =
      .ok (some (g.blockRef P)) := by
  have hget := (SingleChain.ofGenesis hP hg fees).linear.getBlock (List.mem_singleton.mpr rfl)
  obtain ⟨pow, hpow, hheight, _⟩ := hg.header
  exact Storage.getLatestFinalizedBlockRef_eq_iff.mpr
    ⟨_, g, pow, (LatestPow.ofGenesis hg fees).ref, hget, hpow, .inr ⟨hheight, rfl⟩⟩

/-- A block that extends the head is appended to the chain. -/
lemma extend (h : SingleChain P s head chain) (hP : RootsSound P) (hb : ExtendsHead s b.message)
    (fees : Nat) :
    SingleChain P (s.extend P b fees true) (some (b.blockRef P)) (chain ++ [b]) := by
  obtain ⟨_, _, _, hn⟩ := h.linear.extendsHead hb
  constructor
  case linear => exact h.linear.extend hP hb fees
  case nonempty => simp
  case index =>
    intro n
    change (s.blockByHeight.insert b.number (b.canonicalRoot P)).lookup n = _
    rw [hn]
    rcases Nat.lt_trichotomy n chain.length with lt | rfl | gt
    · rw [Finmap.lookup_insert_of_ne _ lt.ne, h.index, List.getElem?_append_left lt]
    · rw [Finmap.lookup_insert]
      simp
    · rw [Finmap.lookup_insert_of_ne _ gt.ne', h.index, List.getElem?_eq_none gt.le,
        List.getElem?_eq_none (by simp; omega)]
  case head => rfl
  case latestPow =>
    obtain ⟨p, hp⟩ := h.latestPow
    obtain ⟨lt, _⟩ := List.getElem?_eq_some_iff.mp (h.linear.getElem? hp.mem)
    exact ⟨_, hp.extend (by omega) fees⟩
  case fees =>
    intro b' mem
    by_cases e : b'.canonicalRoot P = b.canonicalRoot P
    · rw [e]
      simp [Storage.extend]
    · rcases List.mem_append.mp mem with mem | mem
      · simpa [Storage.extend, Finmap.lookup_insert_of_ne _ e] using h.fees b' mem
      · rw [List.mem_singleton.mp mem] at e
        exact absurd rfl e

end SingleChain

/-! ## Runs -/

/-- What is assumed of the execution layer: it answers for a payload that it accepted only if the
payload's number is the one after that of its parent; `num` is the number of a block by its hash. -/
def Env.Numbers (num : ExecutionBlockHash → Nat) (env : Env) : Prop :=
  ∀ payload execution, env.commitBlock payload = .ok () →
    env.getBlockAndReceipts payload.blockHash = .ok execution →
    payload.blockNumber = num payload.parentHash + 1 ∧ num payload.blockHash = payload.blockNumber

/-- The store holds a single chain and the execution layer numbers its payloads as the chain does.
-/
def NumberedChain (P : Primitives) (num : ExecutionBlockHash → Nat) (k : Core) : Prop :=
  ∃ chain, SingleChain P k.storage k.head chain ∧
    ∀ b ∈ chain, num b.message.executionPayload.blockHash = b.number

/-- What is kept of a cached block: it lies above the head in memory, its parent is stored and its
payload is on top of the parent's, and the end of its range is stored. -/
structure OnStored (k : Core) (m : ConsensusBlock) : Prop where
  above : ∀ head ∈ k.head, head.height < m.executionPayload.blockNumber
  parent : ∃ prev, k.storage.getBlock m.parentHash = some prev ∧
    m.executionPayload.parentHash = prev.message.executionPayload.blockHash
  range : RangeStored k.storage m

variable {b : SignedConsensusBlock}

/-- The end of the range of a header that passed the checks is stored. -/
lemma checkAuxPow_rangeEnd {P cfg s w} {pow : AuxPowHeader} (e : checkAuxPow P cfg s w b = .ok ())
    (hpow : b.message.auxpowHeader = some pow) :
    ∃ stop, s.getBlock pow.rangeEnd = some stop := by
  rw [checkAuxPow, hpow] at e
  obtain ⟨⟨_, hcheck⟩, _⟩ := checkFinalization_ok e
  obtain ⟨_, _, hashes, _, _, _, _, hhashes, _⟩ := checkPow_ok hcheck
  exact Storage.stored_of_getHashes hhashes

lemma checkAuxPow_rangeStored {P cfg s w} (e : checkAuxPow P cfg s w b = .ok ()) :
    RangeStored s b.message := by
  intro pow hpow _
  obtain ⟨stop, hstop⟩ := checkAuxPow_rangeEnd e hpow
  rw [hstop, Option.isSome_some]

lemma Validated.onStored {P cfg env b k missing} (h : Validated P cfg env b k missing) :
    OnStored (k.registerUtxos missing) b.message := by
  obtain ⟨_, above, parent, _⟩ := checkParent_eq_ok_iff.mp h.parent
  exact ⟨above, parent, checkAuxPow_rangeStored h.auxPow⟩

/-- A cached block whose payload the execution layer accepts extends the head: its number is that of
its parent plus one, and above the head. -/
lemma OnStored.extendsHead {P execution} {num : ExecutionBlockHash → Nat} {env : Env} {k : Core}
    {chain : List SignedConsensusBlock} (h : SingleChain P k.storage k.head chain)
    (hnum : ∀ b ∈ chain, num b.message.executionPayload.blockHash = b.number)
    (hm : OnStored k b.message) (henv : env.Numbers num)
    (payload : env.commitBlock b.message.executionPayload = .ok ())
    (executed : env.getBlockAndReceipts b.message.executionPayload.blockHash = .ok execution) :
    ExtendsHead k.storage b.message ∧ num b.message.executionPayload.blockHash = b.number := by
  obtain ⟨next, hnumb⟩ := henv _ _ payload executed
  obtain ⟨prev, hprev, hpayload⟩ := hm.parent
  obtain ⟨hmem, hroot⟩ := h.linear.stored.mp hprev
  rw [hpayload, hnum prev hmem] at next
  have hlast : chain.getLast? = some (chain.getLast h.nonempty) := List.getLast?_eq_some_getLast _
  have hhead := h.linear.head
  rw [hlast, Option.map_some] at hhead
  have habove := hm.above _ (h.head.trans hhead)
  rw [List.getLast?_eq_getElem?] at hlast
  obtain ⟨lt, _⟩ := List.getElem?_eq_some_iff.mp (h.linear.getElem? hmem)
  have hnlast := h.linear.number hlast
  have heq : prev = chain.getLast h.nonempty := by
    refine h.linear.eq_of_number hmem (List.getLast_mem _) ?_
    simp only [SignedConsensusBlock.blockRef] at habove
    omega
  refine ⟨⟨_, hhead, ?_, ?_⟩, hnumb⟩
  · rw [← hroot, heq]
    rfl
  · rw [next, heq]
    rfl

/-- Every step keeps `NumberedChain`. -/
lemma maintains_numberedChain {P cfg num} (hP : RootsSound P) :
    Maintains P cfg (fun env => env.commitOps = true ∧ env.Numbers num) (fun _ _ _ => True)
      (NumberedChain P num) OnStored where
  fetch := fun _ h _ => ⟨h, fun _ hm => ⟨hm.above, hm.parent, hm.range⟩⟩
  valid := fun _ _ hvalid => hvalid.onStored
  imports := by
    rintro k env b k' ⟨hcommit, henv⟩ ⟨chain, h, hnum⟩ hm payload himp
    cases himp with
    | unchanged => exact ⟨chain, h, hnum⟩
    | stopped => exact ⟨chain, h, hnum⟩
    | dropped _ failed => exact absurd ⟨hm.range, hcommit⟩ failed
    | @committed w execution fees executed _ _ _ _ =>
      obtain ⟨hb, hnumb⟩ := hm.extendsHead h hnum henv payload executed
      have hadv : k.advances b = true :=
        Core.advances_iff.mpr fun head mem => (hm.above head mem).le
      refine ⟨chain ++ [b], ?_, ?_⟩
      · simp only [Core.commit, Core.withHead, Core.advances] at hadv ⊢
        simp only [hadv, if_true]
        exact h.extend hP hb fees
      · intro b' mem
        rcases List.mem_append.mp mem with mem | mem
        · exact hnum b' mem
        · rw [List.mem_singleton.mp mem]
          exact hnumb
  restart := fun ⟨chain, h, hnum⟩ => ⟨chain, { h with head := rfl }, hnum⟩

lemma NumberedChain.ofGenesis {P num env g fees w} (hP : RootsSound P) (hg : g.IsGenesis)
    (hnum : num g.message.executionPayload.blockHash = 0) :
    NumberedChain P num (Chain.ofGenesis P env g fees w).core := by
  refine ⟨[g], .ofGenesis hP hg fees, fun b mem => ?_⟩
  rw [List.mem_singleton.mp mem, hnum, hg.number]

/-- In every run from a stored genesis block, without rollbacks and with successful commits, the
store holds a single chain and the head in memory is its last block. -/
theorem run_singleChain {P : Primitives} {cfg : ChainConfig} {num : ExecutionBlockHash → Nat}
    {env : Env} {spec : ChainSpec} {payload : ExecutionPayload} {w : UtxoManager} {c₀ c : Chain}
    (hP : RootsSound P) (hnum : num payload.blockHash = 0)
    (start : storeGenesis P cfg env spec payload (Chain.new .empty w) = (.ok (), c₀))
    (run : NodeRun P cfg (fun env => env.commitOps = true ∧ env.Numbers num) (fun _ _ _ => True)
      c₀ c) :
    ∃ chain, SingleChain P c.storage c.head chain := by
  obtain ⟨g, fees, execution, hg, hpayload, _, _, rfl⟩ := storeGenesis_ok start
  rw [← hpayload] at hnum
  obtain ⟨chain, h, _⟩ := (maintains_numberedChain hP).run run (.ofGenesis hP hg hnum) rfl
  exact ⟨chain, h⟩

/-- An execution layer that numbers a block by the length of its hash. -/
def Env.toyNumbered : Env :=
  { Env.toy with
    commitBlock := fun payload =>
      if payload.blockNumber = payload.parentHash.length + 1 ∧
          payload.blockHash.length = payload.blockNumber then
        .ok ()
      else
        .error (.error .engineApiError) }

lemma Env.toyNumbered_numbers : Env.toyNumbered.Numbers List.length := by
  intro payload execution e _
  simp only [Env.toyNumbered] at e
  split at e
  case isTrue h => exact h
  case isFalse => cases e

/-- A payload with the hash that this execution layer expects at a height. -/
def ExecutionPayload.toy (number : Nat) : ExecutionPayload :=
  ⟨List.replicate (number - 1) 0, List.replicate number 0, number, 0, [], []⟩

def SignedConsensusBlock.toyNumbered (number : Nat) : SignedConsensusBlock where
  message := { (SignedConsensusBlock.toy number 0).message with executionPayload := .toy number }
  signature := (SignedConsensusBlock.toy number 0).signature

/-- A lone validator that has stored its genesis block. -/
def Chain.toyGenesis : Chain :=
  (storeGenesis .toy (.toy 1 0) .toyNumbered ⟨0x1d00ffff, 1⟩ (.toy 0) (Chain.new .empty .empty)).2

lemma Chain.toyGenesis_eq :
    storeGenesis .toy (.toy 1 0) .toyNumbered ⟨0x1d00ffff, 1⟩ (.toy 0) (Chain.new .empty .empty) =
      (.ok (), Chain.toyGenesis) := rfl

/-- A validator imports a block on its genesis block. -/
theorem run_singleChain_one_block :
    let c := (Event.block .toyNumbered (.toyNumbered 1)).apply .toy (.toy 1 0) Chain.toyGenesis
    c.imported.length = 2 ∧ ∃ chain, SingleChain .toy c.storage c.head chain := by
  intro c
  have run : NodeRun .toy (.toy 1 0) (fun env => env.commitOps = true ∧ env.Numbers List.length)
      (fun _ _ _ => True) Chain.toyGenesis c :=
    .snoc .refl (Event.block .toyNumbered (.toyNumbered 1))
      ⟨⟨rfl, Env.toyNumbered_numbers⟩, trivial⟩
  exact ⟨by decide, run_singleChain Primitives.toy_rootsSound rfl Chain.toyGenesis_eq run⟩

end Alys
