import Alys.Chain.Genesis

/-!
# Blocks without proof of work

A block without an AuxPow header is accepted only if it lies at most `max_blocks_without_pow` above
the block finalized last. The block finalized last is chosen by the latest header and lies below the
block that contains it, so that the distance to that block is bounded as well, and with it every
stretch of the chain without a header.
-/

namespace Alys
open Lib

/-- Among any `n + 1` consecutive blocks of a chain one has an AuxPow header. -/
def NoStall (n : Nat) (chain : List SignedConsensusBlock) : Prop :=
  ∀ i, i + n < chain.length →
    ∃ j b, i ≤ j ∧ j ≤ i + n ∧ chain[j]? = some b ∧ b.message.auxpowHeader.isSome = true

/-- A block without a header lies at most `max_blocks_without_pow` above the block finalized last.
-/
lemma checkNoFinalization_ok {P cfg s b ref}
    (e : checkNoFinalization P cfg s b = .ok ())
    (hlast : s.getLatestFinalizedBlockRef P = .ok (some ref)) :
    b.number - ref.height ≤ cfg.maxBlocksWithoutPow := by
  simp only [checkNoFinalization, hlast, bind, Except.bind] at e
  split at e
  case isTrue => cases e
  case isFalse h => exact Nat.not_lt.mp h

/-- The chain does not stall, and neither the block finalized last nor the last block is too far
from the latest header. -/
structure Paced (P : Primitives) (n : Nat) (s : Storage) (chain : List SignedConsensusBlock)
    (p : SignedConsensusBlock) (ref : BlockRef) : Prop where
  linear : s.Linear P chain
  latest : LatestPow P s chain p
  finalized : s.getLatestFinalizedBlockRef P = .ok (some ref)
  below : ref.height ≤ p.number
  near : chain.length ≤ p.number + n + 1
  noStall : NoStall n chain

/-- What is kept of a cached block: it extends the stored head, lies above the head in memory, and
its header, or that it has none, has passed the checks on the store as it is. -/
structure CheckedNext (P : Primitives) (cfg : ChainConfig) (k : Core) (m : ConsensusBlock) :
    Prop where
  extendsHead : ExtendsHead k.storage m
  above : ∀ head ∈ k.head, head.height < m.executionPayload.blockNumber
  checked : ∃ w signature, checkAuxPow P cfg k.storage w ⟨m, signature⟩ = .ok ()

lemma Validated.checkedNext {P cfg env b k missing} (h : Validated P cfg env b k missing)
    (hb : ExtendsHead k.storage b.message) :
    CheckedNext P cfg (k.registerUtxos missing) b.message :=
  ⟨hb, (checkParent_eq_ok_iff.mp h.parent).2.1, _, _, h.auxPow⟩

/-- Appending a block keeps a chain from stalling if the latest header is near. -/
lemma NoStall.append {n : Nat} {chain : List SignedConsensusBlock} {p b : SignedConsensusBlock}
    (h : NoStall n chain) (hp : (chain ++ [b])[p.number]? = some p)
    (hpow : p.message.auxpowHeader.isSome = true) (near : chain.length ≤ p.number + n) :
    NoStall n (chain ++ [b]) := by
  intro i hi
  obtain ⟨lt, _⟩ := List.getElem?_eq_some_iff.mp hp
  simp only [List.length_append, List.length_singleton] at hi lt
  by_cases old : i + n < chain.length
  · obtain ⟨j, b', le, ge, e, hb'⟩ := h i old
    exact ⟨j, b', le, ge, by rw [List.getElem?_append_left (by omega), e], hb'⟩
  · -- the stretch that ends with the new block contains the latest header
    exact ⟨p.number, p, by omega, by omega, hp, hpow⟩

namespace Paced

variable {P : Primitives} {n : Nat} {s : Storage} {chain : List SignedConsensusBlock}
  {p b : SignedConsensusBlock} {ref : BlockRef}

lemma ofGenesis {g : SignedConsensusBlock} (hP : RootsSound P) (hg : g.IsGenesis) (fees : Nat) :
    Paced P n (Storage.empty.extend P g fees true) [g] g (g.blockRef P) := by
  constructor
  case linear => exact (SingleChain.ofGenesis hP hg fees).linear
  case latest => exact .ofGenesis hg fees
  case finalized => exact SingleChain.finalized_ofGenesis hP hg fees
  case below => exact le_rfl
  case near => simp
  case noStall =>
    intro i hi
    exact ⟨0, g, by simp at hi; omega, by omega, rfl, (LatestPow.ofGenesis (P := P) hg fees).header⟩

/-- A block without a header that is near enough to the block finalized last. -/
lemma extend (h : Paced P n s chain p ref) (hP : RootsSound P) (hb : ExtendsHead s b.message)
    (hpow : b.message.auxpowHeader = none) (hn : b.number - ref.height ≤ n) (fees : Nat) :
    Paced P n (s.extend P b fees true) (chain ++ [b]) p ref := by
  obtain ⟨_, _, _, hnum⟩ := h.linear.extendsHead hb
  have hp := h.linear.getElem? h.latest.mem
  obtain ⟨lt, _⟩ := List.getElem?_eq_some_iff.mp hp
  have latest := h.latest.extend (b := b) (by omega) fees
  rw [hpow, Option.isSome_none, if_neg Bool.false_ne_true] at latest
  have hbelow := h.below
  constructor
  case linear => exact h.linear.extend hP hb fees
  case latest => exact latest
  case finalized => exact h.linear.finalized_extend hP hb hpow h.finalized
  case below => exact hbelow
  case near =>
    simp only [List.length_append, List.length_singleton]
    omega
  case noStall =>
    refine h.noStall.append ?_ h.latest.header (by omega)
    rw [List.getElem?_append_left lt, hp]

/-- A block with a header is the new latest one, and finalizes no block above itself. -/
lemma extend_pow (h : Paced P n s chain p ref) (hP : RootsSound P) (hb : ExtendsHead s b.message)
    {pow : AuxPowHeader} {stop : SignedConsensusBlock} (hpow : b.message.auxpowHeader = some pow)
    (hstop : s.getBlock pow.rangeEnd = some stop) (fees : Nat) :
    ∃ ref', Paced P n (s.extend P b fees true) (chain ++ [b]) b ref' := by
  obtain ⟨_, _, _, hnum⟩ := h.linear.extendsHead hb
  obtain ⟨lt, _⟩ := List.getElem?_eq_some_iff.mp (h.linear.getElem? h.latest.mem)
  obtain ⟨lt', _⟩ := List.getElem?_eq_some_iff.mp (h.linear.getElem? (h.linear.stored.mp hstop).1)
  have latest := h.latest.extend (b := b) (by omega) fees
  rw [hpow, Option.isSome_some, if_pos rfl] at latest
  have L := h.linear.extend hP hb fees
  obtain ⟨f, hf, hcase⟩ := h.linear.finalized_extend_pow hP hb hpow hstop fees
  have hbelow : f.number ≤ b.number := by
    rcases hcase with rfl | rfl
    · omega
    · exact le_rfl
  refine ⟨f.blockRef P, L, latest, hf, hbelow, ?_, ?_⟩
  · simp only [List.length_append, List.length_singleton]
    omega
  · exact h.noStall.append (L.getElem? latest.mem) latest.header (by omega)

end Paced

/-- Every step keeps `Paced`. -/
lemma upholds_paced {P cfg} (hP : RootsSound P) :
    Upholds P cfg (fun _ => True) (IfValid P cfg fun k b => ExtendsHead k.storage b.message)
      (fun k => ∃ chain p ref, Paced P cfg.maxBlocksWithoutPow k.storage chain p ref)
      (CheckedNext P cfg) where
  fetch := fun _ h _ => ⟨h, fun _ hm => ⟨hm.extendsHead, hm.above, hm.checked⟩⟩
  valid := fun hb _ hvalid => hvalid.checkedNext (hb _ hvalid)
  imports := by
    rintro k env b k' _ ⟨chain, p, ref, h⟩ hm himp
    cases himp with
    | unchanged => exact ⟨chain, p, ref, h⟩
    | stopped => exact ⟨chain, p, ref, h⟩
    | dropped => exact ⟨chain, p, ref, h⟩
    | @committed w fees wallet range =>
      rw [Core.commit_storage (k := { k with bitcoinWallet := w }) hm.above]
      obtain ⟨_, _, checked⟩ := hm.checked
      cases hpow : b.message.auxpowHeader with
      | none =>
        rw [checkAuxPow, hpow] at checked
        exact ⟨_, _, _, h.extend hP hm.extendsHead hpow
          (checkNoFinalization_ok checked h.finalized) fees⟩
      | some pow =>
        obtain ⟨stop, hstop⟩ := checkAuxPow_rangeEnd checked hpow
        obtain ⟨ref', h'⟩ := h.extend_pow hP hm.extendsHead hpow hstop fees
        exact ⟨_, _, _, h'⟩
  restart := fun h => h

/-- In every run from a stored genesis block in which each valid block that arrives extends the
stored head, no more than `max_blocks_without_pow` consecutive blocks of the chain have no header.
-/
theorem run_noStall {P : Primitives} {cfg : ChainConfig} {env : Env} {spec : ChainSpec}
    {payload : ExecutionPayload} {w : UtxoManager} {c₀ c : Chain} (hP : RootsSound P)
    (start : storeGenesis P cfg env spec payload (Chain.new .empty w) = (.ok (), c₀))
    (run : NodeRun P cfg (fun _ => True)
      (IfValid P cfg fun k b => ExtendsHead k.storage b.message) c₀ c) :
    ∃ chain, c.storage.Linear P chain ∧ NoStall cfg.maxBlocksWithoutPow chain := by
  obtain ⟨g, fees, _, hg, _, _, _, rfl⟩ := storeGenesis_ok start
  obtain ⟨chain, p, ref, h⟩ :=
    (upholds_paced hP).run run ⟨[g], g, g.blockRef P, .ofGenesis hP hg fees⟩ rfl
  exact ⟨chain, h.linear, h.noStall⟩

/-- A validator that accepts one block without a header. -/
def ChainConfig.toyImpatient : ChainConfig := { ChainConfig.toy 1 0 with maxBlocksWithoutPow := 1 }

/-- It imports a block on its genesis block, and refuses the next one. -/
theorem run_noStall_second_refused :
    let c₀ := (storeGenesis .toy .toyImpatient .toyNumbered ⟨0x1d00ffff, 1⟩ (.toy 0)
      (Chain.new .empty .empty)).2
    let c₁ := (Event.block .toyNumbered (.toyNumbered 1)).apply .toy .toyImpatient c₀
    let c₂ := (Event.block .toyNumbered (.toyNumbered 2)).apply .toy .toyImpatient c₁
    c₁.imported.length = 2 ∧ c₂.imported.length = 2 ∧
      ∃ chain, c₂.storage.Linear .toy chain ∧ NoStall 1 chain := by
  intro c₀ c₁ c₂
  have start : storeGenesis .toy .toyImpatient .toyNumbered ⟨0x1d00ffff, 1⟩ (.toy 0)
      (Chain.new .empty .empty) = (.ok (), c₀) := rfl
  have run : NodeRun .toy .toyImpatient (fun _ => True)
      (IfValid .toy .toyImpatient fun k b => ExtendsHead k.storage b.message) c₀ c₂ :=
    .snoc (.snoc .refl (Event.block .toyNumbered (.toyNumbered 1))
        ⟨trivial, fun _ _ => ⟨_, rfl, rfl, rfl⟩⟩)
      (Event.block .toyNumbered (.toyNumbered 2)) ⟨trivial, fun _ _ => ⟨_, rfl, rfl, rfl⟩⟩
  exact ⟨by decide, by decide, run_noStall Primitives.toy_rootsSound start run⟩

end Alys
