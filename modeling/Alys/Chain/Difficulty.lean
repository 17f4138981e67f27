import Alys.Chain.Finality
import Alys.Chain.Miner

/-!
# Difficulty

An AuxPow header states the difficulty, the chain id and the height that it was mined for. The next
difficulty is computed from the stated one, and the next miner is given the stated chain id, so the
chain of headers should follow the retargeting rule from the genesis block on.

The checks on a header that a peer sends compute the required difficulty from the store and compare
the proof with it, but never compare it with the difficulty that the header states; they do not read
the stated height, and take the stated chain id for the right one. So a header with a sound proof
may state anything (`difficulty_chain_broken`).

Whether a header follows the rule is a matter of where it comes from. `submit_aux_block` builds it
from the bundle that was handed out and from the store as it is when the proof comes back. If every
header comes from a submission on the store that its block extends, for a bundle that was handed out
on that store, the rule holds in every run (`difficulty_chain`).
-/

namespace Alys
open Lib

/-! ## The rule -/

/-- The header of an imported block above the height of the override states the difficulty that the
previous block with an AuxPow requires, the chain id of the genesis block and the number after that
of the previous block with an AuxPow. -/
def Import.FollowsDifficulty (params : BitcoinConsensusParams) (genesis : SignedConsensusBlock)
    (i : Import) : Prop :=
  ∀ pow, i.block.message.auxpowHeader = some pow → 533683 < i.block.number →
    ∃ ref prev parent, i.before.latestPowBlock = some ref ∧ i.before.getBlock ref.hash = some prev ∧
      i.before.getBlock i.block.message.parentHash = some parent ∧
      getNextWorkRequired prev.message params parent.number = .ok pow.bits ∧
      genesis.message.chainId = .ok pow.chainId ∧ pow.height = prev.number + 1

/-- The latest AuxPow states the chain id of the genesis block. -/
def Storage.OnChainOf (s : Storage) (genesis : SignedConsensusBlock) : Prop :=
  ∃ ref prev, s.latestPowBlock = some ref ∧ s.getBlock ref.hash = some prev ∧
    prev.message.chainId = genesis.message.chainId

/-- A header was built by `submit_aux_block` in a store, for a bundle that was handed out after the
latest AuxPow. -/
def MinedOn (P : Primitives) (params : BitcoinConsensusParams) (s : Storage) (pow : AuxPowHeader) :
    Prop :=
  ∃ ref info hash auxpow, s.latestPowBlock = some ref ∧ info.lastHash = ref.hash ∧
    AuxPowMiner.solvedHeader P params s info hash auxpow = .ok pow

/-! ## A solved header -/

/-- What a header states that was built for a bundle. -/
lemma AuxPowMiner.solvedHeader_ok {P params s info hash auxpow pow}
    (e : solvedHeader P params s info hash auxpow = .ok pow) :
    ∃ prev head, s.getBlock info.lastHash = some prev ∧ s.getHead = .ok head ∧
      getNextWorkRequired prev.message params head.number = .ok pow.bits ∧
      prev.message.chainId = .ok pow.chainId ∧ pow.height = prev.number + 1 := by
  obtain ⟨_, bits, chainId, height, hlast, hnext, hid, _, _, hheight, rfl⟩ :=
    solvedHeader_eq_ok_iff.mp e
  simp only [Storage.getBlockByHash, Storage.nextWorkRequired, bind_eq_ok_iff, okOr_eq_ok_iff, pure,
    Except.pure, Except.ok.injEq] at hlast hnext
  obtain ⟨prev, hprev, rfl⟩ := hlast
  obtain ⟨head, hhead, hbits⟩ := hnext
  exact ⟨prev, head, hprev, hhead, hbits, hid, (checkedU64_eq_ok hheight).symm ▸ rfl⟩

/-- A header that was built on the head follows the rule, and carries the chain id on. -/
lemma MinedOn.follows {P params} {s : Storage} {pow : AuxPowHeader} {m : ConsensusBlock}
    {genesis : SignedConsensusBlock} (h : MinedOn P params s pow) (hm : ExtendsHead s m)
    (hs : s.OnChainOf genesis) :
    ∃ ref prev parent, s.latestPowBlock = some ref ∧ s.getBlock ref.hash = some prev ∧
      s.getBlock m.parentHash = some parent ∧
      getNextWorkRequired prev.message params parent.number = .ok pow.bits ∧
      genesis.message.chainId = .ok pow.chainId ∧ pow.height = prev.number + 1 := by
  obtain ⟨ref, info, hash, auxpow, href, hlast, e⟩ := h
  obtain ⟨prev, head, hprev, hhead, hbits, hid, hheight⟩ := AuxPowMiner.solvedHeader_ok e
  obtain ⟨ref', prev', href', hprev', hgen⟩ := hs
  rw [hlast] at hprev
  cases href.symm.trans href'
  cases hprev.symm.trans hprev'
  -- the head that the miner read is the parent
  obtain ⟨headRef, hr, hparent, _⟩ := hm
  simp only [Storage.getHead, hr, bind_eq_ok_iff, okOr_eq_ok_iff, Option.some.injEq] at hhead
  obtain ⟨_, rfl, hhead⟩ := hhead
  rw [← hparent] at hhead
  exact ⟨ref, prev, head, href, hprev, hhead, hbits, hgen ▸ hid, hheight⟩

/-! ## Nodes with their miners -/

/-- A node with its miner. The other fields are not part of the node: they record, since the store
last changed, the hashes of the bundles that were handed out and the headers that `submit_aux_block`
built for them. -/
structure MinerNode where
  miner : AuxPowMiner
  handedOut : List BlockHash
  built : List AuxPowHeader

namespace MinerNode

/-- A node whose miner has no bundles. -/
def new (c : Chain) : MinerNode := ⟨⟨∅, c⟩, [], []⟩

/-- The chain of the node. -/
abbrev chain (node : MinerNode) : Chain := node.miner.chain

/-- The node after a step of its chain: an import ends what was recorded. -/
def proceed (c : Chain) (node : MinerNode) : MinerNode :=
  if c.imported.length = node.chain.imported.length then
    { node with miner := ⟨node.miner.state, c⟩ }
  else
    ⟨⟨node.miner.state, c⟩, [], []⟩

lemma proceed_chain (c : Chain) (node : MinerNode) : (node.proceed c).chain = c := by
  unfold proceed
  split
  · rfl
  · rfl

end MinerNode

/-- What can happen to a node with a miner. -/
inductive MinerEvent where
  | step (e : Event)
  | create (address : Address)
  | submit (signer : Option BitcoinSigner) (hash : BlockHash) (auxpow : AuxPow)

/-- The header that a submission builds for a remembered bundle. -/
def AuxPowMiner.builtHeader (P : Primitives) (params : BitcoinConsensusParams) (m : AuxPowMiner)
    (hash : BlockHash) (auxpow : AuxPow) : Option AuxPowHeader := do
  let info ← m.state.lookup hash
  (solvedHeader P params m.chain.storage info hash auxpow).toOption

/-- The node after an event. The table of bundles does not outlive a restart. -/
def MinerEvent.apply (P : Primitives) (cfg : ChainConfig) : MinerEvent → MinerNode → MinerNode
  | .step (.block env b), node => node.proceed ((Event.block env b).apply P cfg node.chain)
  | .step (.approval env a), node => node.proceed ((Event.approval env a).apply P cfg node.chain)
  | .step (.background status pow pegins collector), node =>
    node.proceed ((Event.background status pow pegins collector).apply P cfg node.chain)
  | .step .restart, node => .new (Event.restart.apply P cfg node.chain)
  | .create address, node =>
    { node with
      miner := (AuxPowMiner.createAuxBlock P cfg address node.miner).2
      handedOut := ((AuxPowMiner.bundle P node.chain address).toOption.map (·.2.1)).toList ++
        node.handedOut }
  | .submit signer hash auxpow, node =>
    { node with
      miner := (AuxPowMiner.submitAuxBlock P cfg signer hash auxpow node.miner).2
      built :=
        if node.handedOut.any (· = hash) then
          (node.miner.builtHeader P cfg.retargetParams hash auxpow).toList ++ node.built
        else
          node.built }

/-- A block extends the stored head. Above the height of the override its header, if it has one, was
built by `submit_aux_block` at a node with the same store; up to it the header states the chain id
of the genesis block. -/
structure TracedBlock {n : Nat} (genesis : SignedConsensusBlock) (nodes : Fin n → MinerNode)
    (k : Core) (b : SignedConsensusBlock) : Prop where
  extendsHead : ExtendsHead k.storage b.message
  built : ∀ pow, b.message.auxpowHeader = some pow → 533683 < b.number →
    ∃ j, (nodes j).chain.storage = k.storage ∧ pow ∈ (nodes j).built
  chainId : ∀ pow, b.message.auxpowHeader = some pow → b.number ≤ 533683 →
    genesis.message.chainId = .ok pow.chainId

/-- The valid blocks that arrive at a node are traced. -/
def MinerEvent.Traced {n : Nat} (P : Primitives) (cfgs : Fin n → ChainConfig)
    (genesis : SignedConsensusBlock) (nodes : Fin n → MinerNode) : Fin n × MinerEvent → Prop
  | (i, .step (.block env b)) =>
    IfValid P (cfgs i) (TracedBlock genesis nodes) (nodes i).chain.core env b
  | (_, .step (.approval _ _)) => True
  | (_, .step (.background _ _ _ _)) => True
  | (_, .step .restart) => True
  | (_, .create _) => True
  | (_, .submit _ _ _) => True

/-- A bundle that is handed out names the latest AuxPow. -/
lemma AuxPowMiner.bundle_ok {P chain c address block hash info}
    (L : Storage.Linear P c.storage chain) (e : bundle P c address = .ok (block, hash, info)) :
    ∃ ref, c.storage.latestPowBlock = some ref ∧ info.lastHash = ref.hash := by
  obtain ⟨_, _, _, _, _, hlast, _, _, _, e⟩ := bundle_eq_ok_iff.mp e
  cases e
  simp only [Storage.getLastFinalizedBlock, bind_eq_ok_iff, okOr_eq_ok_iff, pure, Except.pure,
    Except.ok.injEq] at hlast
  obtain ⟨ref, href, prev, hprev, rfl⟩ := hlast
  exact ⟨ref, href, (L.stored.mp hprev).2⟩

/-! ## Runs -/

/-- The store is linear, its latest AuxPow states the chain id of the genesis block, and all imports
followed the rule. -/
structure OnRule (P : Primitives) (params : BitcoinConsensusParams) (genesis : SignedConsensusBlock)
    (k : Core) : Prop where
  linear : ∃ chain, k.storage.Linear P chain
  onChain : k.storage.OnChainOf genesis
  followed : ∀ i ∈ k.imported, i.FollowsDifficulty params genesis

/-- A block extends the stored head, and its header was built on the store as it is, or states the
chain id of the genesis block up to the height of the override. -/
structure MinedNext (P : Primitives) (params : BitcoinConsensusParams)
    (genesis : SignedConsensusBlock) (k : Core) (m : ConsensusBlock) : Prop where
  extendsHead : ExtendsHead k.storage m
  mined : ∀ pow, m.auxpowHeader = some pow → 533683 < m.executionPayload.blockNumber →
    MinedOn P params k.storage pow
  chainId : ∀ pow, m.auxpowHeader = some pow → m.executionPayload.blockNumber ≤ 533683 →
    genesis.message.chainId = .ok pow.chainId

/-- What is kept of a cached block: it also lies above the head in memory. -/
structure MinedBlock (P : Primitives) (params : BitcoinConsensusParams)
    (genesis : SignedConsensusBlock) (k : Core) (m : ConsensusBlock) : Prop extends
    MinedNext P params genesis k m where
  above : ∀ head ∈ k.head, head.height < m.executionPayload.blockNumber

/-- The next header states the chain id of the genesis block. -/
lemma MinedNext.chainId_eq {P params genesis k m} (h : MinedNext P params genesis k m)
    (hid : k.storage.OnChainOf genesis) {pow : AuxPowHeader} (hpow : m.auxpowHeader = some pow) :
    genesis.message.chainId = .ok pow.chainId := by
  rcases Nat.lt_or_ge 533683 m.executionPayload.blockNumber with above | below
  · obtain ⟨_, _, _, _, _, _, _, hid, _⟩ := (h.mined pow hpow above).follows h.extendsHead hid
    exact hid
  · exact h.chainId pow hpow below

variable {b : SignedConsensusBlock}

/-- An import that extends the head carries the chain id on. -/
lemma MinedNext.onChainOf {P params genesis k chain} (h : MinedNext P params genesis k b.message)
    (hP : RootsSound P) (hid : k.storage.OnChainOf genesis) (L : k.storage.Linear P chain)
    (fees : Nat) :
    (k.storage.extend P b fees true).OnChainOf genesis := by
  cases hpow : b.message.auxpowHeader with
  | none =>
    obtain ⟨ref, prev, href, hprev, hid⟩ := hid
    refine ⟨ref, prev, ?_, L.getBlock_extend_of_some hP h.extendsHead hprev, hid⟩
    simpa [Storage.extend, hpow] using href
  | some pow =>
    refine ⟨b.blockRef P, b, by simp [Storage.extend, hpow], ?_, ?_⟩
    · exact Storage.Linear.getBlock_extend.trans (if_pos rfl)
    · rw [ConsensusBlock.chainId, hpow, h.chainId_eq hid hpow]

/-- The rule is a matter of the store and the imports. -/
lemma OnRule.congr {P params genesis} {k k' : Core} (h : OnRule P params genesis k)
    (hstorage : k'.storage = k.storage) (himported : k'.imported = k.imported) :
    OnRule P params genesis k' := by
  obtain ⟨s, head, w, imported⟩ := k'
  cases hstorage
  cases himported
  exact ⟨h.linear, h.onChain, h.followed⟩

/-- A mined block follows the rule. -/
lemma OnRule.commit {P params env genesis k} (h : OnRule P params genesis k) (hP : RootsSound P)
    (hm : MinedBlock P params genesis k b.message) (fees : Nat) :
    OnRule P params genesis (k.commit P env b fees) := by
  obtain ⟨chain, L⟩ := h.linear
  constructor
  case linear =>
    rw [Core.commit_storage hm.above]
    exact ⟨_, L.extend hP hm.extendsHead fees⟩
  case onChain =>
    rw [Core.commit_storage hm.above]
    exact hm.onChainOf hP h.onChain L fees
  case followed =>
    intro i mem
    rcases List.mem_append.mp mem with mem | mem
    · exact h.followed i mem
    · rw [List.mem_singleton.mp mem]
      exact fun pow hpow above => (hm.mined pow hpow above).follows hm.extendsHead h.onChain

/-- Every step keeps `OnRule`. -/
lemma upholds_onRule {P cfg params genesis} (hP : RootsSound P) :
    Upholds P cfg (fun _ => True)
      (IfValid P cfg fun k b => MinedNext P params genesis k b.message)
      (OnRule P params genesis) (MinedBlock P params genesis) where
  fetch := fun _ h _ =>
    ⟨h.congr rfl rfl, fun _ hm => ⟨⟨hm.extendsHead, hm.mined, hm.chainId⟩, hm.above⟩⟩
  valid := by
    intro k env b missing hb _ hvalid
    obtain ⟨hext, hmined, hid⟩ := hb missing hvalid
    exact ⟨⟨hext, hmined, hid⟩, (checkParent_eq_ok_iff.mp hvalid.parent).2.1⟩
  imports := by
    rintro k env b k' _ h hm himp
    cases himp with
    | unchanged => exact h
    | stopped => exact h.congr rfl rfl
    | dropped => exact h.congr rfl rfl
    | @committed w fees wallet range =>
      have h' : OnRule P params genesis { k with bitcoinWallet := w } := h.congr rfl rfl
      exact h'.commit hP ⟨⟨hm.extendsHead, hm.mined, hm.chainId⟩, hm.above⟩ fees
  restart := fun h => h.congr rfl rfl

/-- The invariant of a node with its miner: the chain is on the rule, the bundles handed out since
the store last changed name the latest AuxPow, and the headers built for them were built on the
store. -/
structure MinerNode.Sound (P : Primitives) (params : BitcoinConsensusParams)
    (genesis : SignedConsensusBlock) (node : MinerNode) : Prop where
  rule : Maintains.Inv (OnRule P params genesis) (MinedBlock P params genesis) node.chain
  bundles : ∀ hash ∈ node.handedOut, ∀ info, node.miner.state.lookup hash = some info →
    ∃ ref, node.chain.storage.latestPowBlock = some ref ∧ info.lastHash = ref.hash
  built : ∀ pow ∈ node.built, MinedOn P params node.chain.storage pow

namespace MinerNode.Sound

variable {P : Primitives} {cfg : ChainConfig} {params : BitcoinConsensusParams}
  {genesis : SignedConsensusBlock} {node : MinerNode}

/-- A step of the chain. -/
lemma proceed (h : node.Sound P params genesis) {e : Event}
    (rule : Maintains.Inv (OnRule P params genesis) (MinedBlock P params genesis)
      (e.apply P cfg node.chain)) :
    (node.proceed (e.apply P cfg node.chain)).Sound P params genesis := by
  unfold MinerNode.proceed
  split
  case isTrue same =>
    have hstorage := e.apply_storage same
    refine ⟨rule, ?_, ?_⟩
    · rw [MinerNode.chain, hstorage]
      exact h.bundles
    · rw [MinerNode.chain, hstorage]
      exact h.built
  case isFalse => exact ⟨rule, nofun, nofun⟩

/-- A request for work records the bundle that it is handed. -/
lemma create (h : node.Sound P params genesis) (address : Address) :
    ((MinerEvent.create address).apply P cfg node).Sound P params genesis := by
  obtain ⟨chain, L⟩ := h.rule.1.linear
  obtain ⟨f, hbundle, e⟩ | ⟨indexLast, hash, info, hbundle, e⟩ :=
    @AuxPowMiner.createAuxBlock_snd P cfg address node.miner
  · simp only [MinerEvent.apply, MinerNode.chain, hbundle, e]
    exact h
  · simp only [MinerEvent.apply, MinerNode.chain, hbundle, e]
    refine ⟨h.rule, ?_, h.built⟩
    intro hash' mem info' hinfo
    by_cases eq : hash' = hash
    · rw [eq, Finmap.lookup_insert] at hinfo
      cases hinfo
      exact AuxPowMiner.bundle_ok L hbundle
    · rw [Finmap.lookup_insert_of_ne _ eq] at hinfo
      exact h.bundles hash' ((List.mem_cons.mp mem).resolve_left eq) info' hinfo

/-- A submission for a bundle that was handed out on the store builds a header on the store. -/
lemma builtHeader (h : node.Sound P params genesis) {hash : BlockHash} {auxpow : AuxPow}
    {pow : AuxPowHeader} (mem : hash ∈ node.handedOut)
    (e : node.miner.builtHeader P params hash auxpow = some pow) :
    MinedOn P params node.chain.storage pow := by
  obtain ⟨info, hinfo, e⟩ := Option.bind_eq_some_iff.mp e
  obtain ⟨ref, href, hlast⟩ := h.bundles hash mem info hinfo
  cases hsolved : AuxPowMiner.solvedHeader P params node.miner.chain.storage info hash auxpow with
  | error => simp [hsolved, Except.toOption] at e
  | ok header =>
    rw [hsolved] at e
    cases e
    exact ⟨ref, info, hash, auxpow, href, hlast, hsolved⟩

/-- A submission records the header that it builds. -/
lemma submit (h : node.Sound P cfg.retargetParams genesis) (signer : Option BitcoinSigner)
    (hash : BlockHash) (auxpow : AuxPow) :
    ((MinerEvent.submit signer hash auxpow).apply P cfg node).Sound P cfg.retargetParams
      genesis := by
  obtain ⟨state, queuedPow, collector, hstate, e⟩ :=
    @AuxPowMiner.submitAuxBlock_snd P cfg signer hash auxpow node.miner
  simp only [MinerEvent.apply, e]
  refine ⟨h.rule, ?_, ?_⟩
  · intro hash' mem info' hinfo
    rcases hstate with rfl | rfl
    · exact h.bundles hash' mem info' hinfo
    · exact h.bundles hash' mem info' (lookup_erase_eq_some.mp hinfo).2
  · intro pow mem
    split at mem
    case isTrue handed =>
      have handed : hash ∈ node.handedOut := by
        obtain ⟨hash', mem', same⟩ := List.any_eq_true.mp handed
        rw [← of_decide_eq_true same]
        exact mem'
      rcases List.mem_append.mp mem with mem | mem
      · exact h.builtHeader handed (Option.mem_toList.mp mem)
      · exact h.built pow mem
    case isFalse => exact h.built pow mem

end MinerNode.Sound

variable {n : Nat} {nodes : Fin n → MinerNode}

/-- A traced block extends the head with a header that was built on the store. -/
lemma TracedBlock.minedNext {P params genesis} {k : Core} {b : SignedConsensusBlock}
    (sound : ∀ j, (nodes j).Sound P params genesis) (h : TracedBlock genesis nodes k b) :
    MinedNext P params genesis k b.message where
  extendsHead := h.extendsHead
  mined := by
    intro pow hpow above
    obtain ⟨j, hstorage, mem⟩ := h.built pow hpow above
    rw [← hstorage]
    exact (sound j).built pow mem
  chainId := h.chainId

/-- An event at one of several nodes keeps its invariant. -/
lemma MinerNode.Sound.event {P : Primitives} {cfgs : Fin n → ChainConfig} {params genesis}
    (hP : RootsSound P) (hparams : ∀ i, (cfgs i).retargetParams = params)
    (sound : ∀ j, (nodes j).Sound P params genesis) {e : Fin n × MinerEvent}
    (ok : MinerEvent.Traced P cfgs genesis nodes e) :
    (e.2.apply P (cfgs e.1) (nodes e.1)).Sound P params genesis := by
  obtain ⟨i, e⟩ := e
  have U := (@upholds_onRule P (cfgs i) params genesis hP).maintains
  have h := sound i
  cases e with
  | step e =>
    have rule : e.Allowed (fun _ => True)
        (IfValid P (cfgs i) fun k b => MinedNext P params genesis k b.message) (nodes i).chain →
        Maintains.Inv (OnRule P params genesis) (MinedBlock P params genesis)
          (e.apply P (cfgs i) (nodes i).chain) := fun allowed => U.event allowed h.rule
    cases e with
    | block env b =>
      exact h.proceed (rule ⟨trivial, fun missing valid => (ok missing valid).minedNext sound⟩)
    | approval env a => exact h.proceed (rule trivial)
    | background => exact h.proceed (rule trivial)
    | restart => exact ⟨rule trivial, nofun, nofun⟩
  | create address => exact h.create address
  | submit signer hash auxpow =>
    cases hparams i
    exact h.submit signer hash auxpow

/-- A node starts on a chain from the genesis block whose latest AuxPow states its chain id. -/
structure Chain.StartsOn (P : Primitives) (genesis : SignedConsensusBlock) (c : Chain) : Prop where
  linear : ∃ blocks, c.storage.Linear P (genesis :: blocks)
  onChain : c.storage.OnChainOf genesis
  candidates : c.blockCandidates = .empty
  imported : c.imported = []

/-- In every run of nodes and their miners in which each valid block that arrives extends the stored
head, with a header, if it has one, that `submit_aux_block` built at a node with the same store
since that store last changed, for a bundle that was handed out since then, the imported headers
follow the difficulty rule. -/
theorem difficulty_chain {n : Nat} {P : Primitives} {cfgs : Fin n → ChainConfig}
    {params : BitcoinConsensusParams} {genesis : SignedConsensusBlock} {start : Fin n → Chain}
    {nodes : Fin n → MinerNode} (hP : RootsSound P)
    (hparams : ∀ i, (cfgs i).retargetParams = params)
    (hstart : ∀ i, (start i).StartsOn P genesis)
    (run : Run (familyStep fun i => MinerEvent.apply P (cfgs i))
      (MinerEvent.Traced P cfgs genesis) (fun i => .new (start i)) nodes) :
    ∀ i, ∀ x ∈ (nodes i).chain.imported, x.FollowsDifficulty params genesis := by
  have init : ∀ i, (MinerNode.new (start i)).Sound P params genesis := by
    intro i
    obtain ⟨⟨blocks, L⟩, hid, hcandidates, himported⟩ := hstart i
    refine ⟨⟨⟨⟨_, L⟩, hid, ?_⟩, ?_⟩, nofun, nofun⟩
    · intro x mem
      rw [show (MinerNode.new (start i)).chain.core.imported = [] from himported] at mem
      cases mem
    · rw [show (MinerNode.new (start i)).chain.blockCandidates = .empty from hcandidates]
      exact BlockCandidateCache.holds_empty
  intro i
  exact (run.family_invariant (I := fun _ => MinerNode.Sound P params genesis) init
    (fun nodes e sound ok => MinerNode.Sound.event hP hparams sound ok) i).rule.1.followed

/-- A node on a chain of the numbers 0 to `n + 1` after a block with a header arrived. -/
def Chain.toyMined (n bits chainId height : Nat) : Chain :=
  (Event.block .toy (.toyMined bits chainId height (n + 2))).apply .toy .toyFullNode
    (Chain.new (.toyFinal n) .empty)

lemma Chain.toyMined_imported {n bits chainId height : Nat} (hn : n + 2 < 2 ^ 64)
    (hid : chainId = 1 ∨ chainId = 2) :
    (Chain.toyMined n bits chainId height).imported =
      [⟨.toyFinal n, .toyMined bits chainId height (n + 2), .toy⟩] :=
  (processBlock_toyMined (c := Chain.new (.toyFinal n) .empty) (.toyFinal n) rfl rfl hn hid).2.2.1

lemma toyBlocks_eq_cons (n : Nat) : ∃ blocks, toyBlocks n = .toyPow 0 :: blocks := by
  induction n with
  | zero => exact ⟨[], rfl⟩
  | succ n ih =>
    obtain ⟨blocks, e⟩ := ih
    exact ⟨blocks ++ [.toy (n + 1) 0], by rw [toyBlocks, e, List.cons_append]⟩

lemma Storage.toyFinal_linear_cons (n : Nat) :
    ∃ blocks, (Storage.toyFinal n).Linear .toy (.toyPow 0 :: blocks) := by
  obtain ⟨blocks, e⟩ := toyBlocks_eq_cons n
  refine ⟨blocks ++ [.toyPow (n + 1)], ?_⟩
  rw [← List.cons_append, ← e]
  exact Storage.toyFinal_linear n

lemma Storage.toyFinal_onChainOf (n : Nat) : (Storage.toyFinal n).OnChainOf (.toyPow 0) :=
  ⟨_, _, rfl, Storage.toyFinal_getBlock n, rfl⟩

/-- A node on such a chain whose last block is not finalized yet. -/
def Chain.toyReady (n : Nat) : Chain :=
  { Chain.new (.toyFinal n) .empty with blockHashCache := [toyRoot (n + 1) 0] }

lemma Chain.toyReady_startsOn (n : Nat) : (Chain.toyReady n).StartsOn .toy (.toyPow 0) :=
  ⟨Storage.toyFinal_linear_cons n, Storage.toyFinal_onChainOf n, rfl, rfl⟩

/-- The bundle that a request is handed there. -/
lemma AuxPowMiner.bundle_toyReady (n : Nat) :
    bundle .toy (Chain.toyReady n) [9] = .ok ((SignedConsensusBlock.toyPow (n + 1)).message,
      AuxPow.aggregateHash .toy [toyRoot (n + 1) 0],
      ⟨toyRoot (n + 1) 0, toyRoot (n + 1) 0, toyRoot (n + 1) 0, [9]⟩) := by
  refine bundle_eq_ok_iff.mpr ⟨rfl, _, _, _, _, ?_, rfl, rfl, rfl, rfl⟩
  simp only [Storage.getLastFinalizedBlock, bind_eq_ok_iff, okOr_eq_ok_iff]
  exact ⟨_, rfl, _, Storage.toyFinal_getBlock n, rfl⟩

/-- The header that `submit_aux_block` builds for it. -/
lemma AuxPowMiner.solvedHeader_toyFinal {params : BitcoinConsensusParams}
    (hparams : params.powNoRetargeting = true) (hn : n + 2 < 2 ^ 64) :
    solvedHeader .toy params (.toyFinal n)
      ⟨toyRoot (n + 1) 0, toyRoot (n + 1) 0, toyRoot (n + 1) 0, [9]⟩
      (AuxPow.aggregateHash .toy [toyRoot (n + 1) 0]) .toy =
        .ok { AuxPowHeader.toy (toyRoot (n + 1) 0) with height := n + 2 } := by
  refine solvedHeader_eq_ok_iff.mpr ⟨(SignedConsensusBlock.toyPow (n + 1)).message, 0x1d00ffff, 1,
    n + 2, ?_, ?_, rfl, AuxPow.toy_checkProofOfWork _, AuxPow.toy_check (.inl rfl) _,
    checkedU64_of_lt hn, rfl⟩
  · simp only [Storage.getBlockByHash, bind_eq_ok_iff, okOr_eq_ok_iff]
    exact ⟨_, Storage.toyFinal_getBlock n, rfl⟩
  · simp only [Storage.nextWorkRequired, bind_eq_ok_iff]
    exact ⟨_, Storage.toyFinal_getHead n, toyPow_nextWork hn hparams⟩

/-- The node after the bundle was handed out and a proof for it submitted. -/
def MinerNode.toyBuilt (n : Nat) : MinerNode :=
  (MinerEvent.submit none (AuxPow.aggregateHash .toy [toyRoot (n + 1) 0]) .toy).apply .toy
    .toyFullNode ((MinerEvent.create [9]).apply .toy .toyFullNode (.new (.toyReady n)))

lemma MinerNode.toyCreated :
    (MinerEvent.create [9]).apply .toy .toyFullNode (.new (.toyReady n)) =
      ⟨⟨(∅ : Map BlockHash AuxInfo).insert (AuxPow.aggregateHash .toy [toyRoot (n + 1) 0])
          ⟨toyRoot (n + 1) 0, toyRoot (n + 1) 0, toyRoot (n + 1) 0, [9]⟩, .toyReady n⟩,
        [AuxPow.aggregateHash .toy [toyRoot (n + 1) 0]], []⟩ := by
  obtain ⟨f, hbundle, _⟩ | ⟨_, _, _, hbundle, e⟩ :=
    @AuxPowMiner.createAuxBlock_snd .toy .toyFullNode [9] (MinerNode.new (.toyReady n)).miner
  · cases hbundle.symm.trans (AuxPowMiner.bundle_toyReady n)
  · cases hbundle.symm.trans (AuxPowMiner.bundle_toyReady n)
    simp only [MinerEvent.apply, e, hbundle]
    rfl

/-- The submission records the header, and leaves what a block is checked against. -/
lemma MinerNode.toyBuilt_spec (hn : n + 2 < 2 ^ 64) :
    { AuxPowHeader.toy (toyRoot (n + 1) 0) with height := n + 2 } ∈ (MinerNode.toyBuilt n).built ∧
      (MinerNode.toyBuilt n).chain.storage = .toyFinal n ∧
      (MinerNode.toyBuilt n).chain.head = (MinerNode.toyBuilt n).chain.storage.head ∧
      (MinerNode.toyBuilt n).chain.imported = [] ∧
      (MinerNode.toyBuilt n).chain.blockCandidates = .empty := by
  rw [MinerNode.toyBuilt, MinerNode.toyCreated]
  obtain ⟨_, _, _, _, e⟩ := @AuxPowMiner.submitAuxBlock_snd .toy .toyFullNode none
    (AuxPow.aggregateHash .toy [toyRoot (n + 1) 0]) .toy
    ⟨(∅ : Map BlockHash AuxInfo).insert (AuxPow.aggregateHash .toy [toyRoot (n + 1) 0])
      ⟨toyRoot (n + 1) 0, toyRoot (n + 1) 0, toyRoot (n + 1) 0, [9]⟩, .toyReady n⟩
  simp only [MinerEvent.apply, e]
  refine ⟨?_, rfl, rfl, rfl, rfl⟩
  have handed : ∀ hash : BlockHash, [hash].any (· = hash) = true := by simp
  rw [if_pos (handed _), List.append_nil, Option.mem_toList, AuxPowMiner.builtHeader,
    Finmap.lookup_insert]
  exact congrArg Except.toOption (AuxPowMiner.solvedHeader_toyFinal rfl hn)

/-- The lone node after the header arrived in a block. -/
def MinerNode.toyMined (n : Nat) : MinerNode :=
  (MinerEvent.step (.block .toy (.toyMined 0x1d00ffff 1 (n + 2) (n + 2)))).apply .toy .toyFullNode
    (.toyBuilt n)

/-- A step of a lone node. -/
lemma familyStep_lone (e : MinerEvent) (node : MinerNode) :
    familyStep (fun _ : Fin 1 => MinerEvent.apply .toy .toyFullNode) (0, e) (fun _ => node) =
      fun _ => e.apply .toy .toyFullNode node := by
  funext i
  rw [Subsingleton.elim i 0, familyStep, Function.update_self]

/-- The header is handed out, built and put into a block. -/
lemma MinerNode.toyMined_run (hn : n + 2 < 2 ^ 64) (above : 533683 < n + 2) :
    Run (familyStep fun _ : Fin 1 => MinerEvent.apply .toy .toyFullNode)
      (MinerEvent.Traced .toy (fun _ => .toyFullNode) (.toyPow 0)) (fun _ => .new (.toyReady n))
      (fun _ => .toyMined n) := by
  obtain ⟨hbuilt, hstorage, _⟩ := MinerNode.toyBuilt_spec hn
  have start : Run (familyStep fun _ : Fin 1 => MinerEvent.apply .toy .toyFullNode)
      (MinerEvent.Traced .toy (fun _ => .toyFullNode) (.toyPow 0)) (fun _ => .new (.toyReady n))
      (fun _ => .new (.toyReady n)) := .refl
  have created := start.snoc (0, .create [9]) trivial
  rw [familyStep_lone] at created
  have built := created.snoc
    (0, .submit none (AuxPow.aggregateHash .toy [toyRoot (n + 1) 0]) .toy) trivial
  rw [familyStep_lone] at built
  have traced : MinerEvent.Traced .toy (fun _ => .toyFullNode) (.toyPow 0)
      (fun _ : Fin 1 => .toyBuilt n)
      (0, .step (.block .toy (.toyMined 0x1d00ffff 1 (n + 2) (n + 2)))) := by
    intro missing valid
    refine ⟨?_, ?_, fun pow _ below => absurd above (Nat.not_lt.mpr below)⟩
    · rw [show (MinerNode.toyBuilt n).chain.core.storage = .toyFinal n from hstorage]
      exact Storage.toyFinal_extendsHead n
    · rintro pow ⟨⟩ _
      exact ⟨0, rfl, hbuilt⟩
  have mined := built.snoc _ traced
  rw [familyStep_lone] at mined
  exact mined

lemma MinerNode.toyMined_imported (hn : n + 2 < 2 ^ 64) :
    (MinerNode.toyMined n).chain.imported =
      [⟨.toyFinal n, .toyMined 0x1d00ffff 1 (n + 2) (n + 2), .toy⟩] := by
  obtain ⟨_, hstorage, hhead, himported, hcandidates⟩ := MinerNode.toyBuilt_spec hn
  have h := Storage.EndsWithPow.toyFinal n
  rw [← hstorage] at h
  rw [show (MinerNode.toyMined n).chain = _ from MinerNode.proceed_chain _ _]
  refine (processBlock_toyMined h hhead hcandidates hn (.inl rfl)).2.2.1.trans ?_
  rw [himported, hstorage, List.nil_append]

/-- A header is built for a bundle that was handed out, and imported. -/
theorem difficulty_chain_toyMined :
    (MinerNode.toyMined 533682).chain.imported.map (·.block.number) = [533684] ∧
    ∀ x ∈ (MinerNode.toyMined 533682).chain.imported,
      x.FollowsDifficulty ChainConfig.toyFullNode.retargetParams (.toyPow 0) := by
  have follows : ∀ n, n + 2 < 2 ^ 64 → 533683 < n + 2 →
      ∀ x ∈ (MinerNode.toyMined n).chain.imported,
        x.FollowsDifficulty ChainConfig.toyFullNode.retargetParams (.toyPow 0) :=
    fun n hn above => difficulty_chain Primitives.toy_rootsSound (fun _ => rfl)
      (fun _ => Chain.toyReady_startsOn n) (MinerNode.toyMined_run hn above) 0
  have imports : ∀ n, n + 2 < 2 ^ 64 →
      (MinerNode.toyMined n).chain.imported.map (·.block.number) = [n + 2] :=
    fun n hn => congrArg (List.map fun x => x.block.number) (MinerNode.toyMined_imported hn)
  exact ⟨imports 533682 (by decide), follows 533682 (by decide) (by decide)⟩

/-- A header that states the difficulty 7, another chain id and the height 0 is imported. -/
theorem difficulty_chain_broken :
    ¬ ∀ (P : Primitives) (cfg : ChainConfig) (s : Storage) (genesis : SignedConsensusBlock)
      (blocks : List SignedConsensusBlock) (w : UtxoManager) (c : Chain),
      RootsSound P → s.Linear P (genesis :: blocks) → s.OnChainOf genesis →
      NodeRun P cfg (fun _ => True) (fun k _ b => ExtendsHead k.storage b.message)
        (Chain.new s w) c →
      ∀ i ∈ c.imported, i.FollowsDifficulty cfg.retargetParams genesis := by
  intro all
  have states : ∀ n, n + 2 < 2 ^ 64 → 533683 < n + 2 → False := by
    intro n hn above
    obtain ⟨blocks, L⟩ := Storage.toyFinal_linear_cons n
    have run : NodeRun .toy .toyFullNode (fun _ => True)
        (fun k _ b => ExtendsHead k.storage b.message)
        (Chain.new (.toyFinal n) .empty) (Chain.toyMined n 7 2 0) :=
      Run.snoc .refl (Event.block .toy (.toyMined 7 2 0 (n + 2)))
        ⟨trivial, Storage.toyFinal_extendsHead n⟩
    have follows := all _ _ _ _ _ _ _ Primitives.toy_rootsSound L (Storage.toyFinal_onChainOf n)
      run
    rw [Chain.toyMined_imported hn (.inr rfl)] at follows
    obtain ⟨_, _, _, _, _, _, _, hid, _⟩ := follows _ (List.mem_singleton.mpr rfl) _ rfl above
    cases hid
  exact states 533682 (by decide) (by decide)

end Alys
