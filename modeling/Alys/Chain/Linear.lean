import Alys.Chain.Lineage
import Alys.Lib.Segment

/-!
# Linear stores

A store that holds one chain of blocks, numbered from 0 to its head, and what the walks over stored
blocks compute on it. Imports without rollback, each of a block that extends the head, keep a store
linear.
-/

namespace Alys
open Lib

/-- What is assumed of the root of a block: it determines the block's number and is not zero. -/
structure RootsSound (P : Primitives) : Prop where
  height : ∀ {m m' : ConsensusBlock}, P.signingRoot m = P.signingRoot m' →
    m.executionPayload.blockNumber = m'.executionPayload.blockNumber
  nonzero : ∀ m, P.signingRoot m ≠ Hash256.zero

namespace Storage

/-- A walk over different stored blocks has enough fuel. -/
lemma length_lt_fuel {P : Primitives} {s : Storage} {blocks : List SignedConsensusBlock}
    (nodup : (blocks.map (·.canonicalRoot P)).Nodup)
    (stored : ∀ b ∈ blocks, s.getBlock (b.canonicalRoot P) = some b) : blocks.length < s.fuel := by
  rw [← List.length_map (·.canonicalRoot P)]
  refine hashes_lt_fuel nodup fun h mem => ?_
  obtain ⟨b, hb, rfl⟩ := List.mem_map.mp mem
  exact ⟨b, stored b hb⟩

/-- The store holds exactly the blocks of a chain, each under its root: the block at position `i`
has number `i`, the parent of each is the one before it and the head is the last one. -/
structure Linear (P : Primitives) (s : Storage) (chain : List SignedConsensusBlock) : Prop where
  stored : ∀ {h} {b : SignedConsensusBlock},
    s.getBlock h = some b ↔ b ∈ chain ∧ b.canonicalRoot P = h
  number : ∀ {i} {b : SignedConsensusBlock}, chain[i]? = some b → b.number = i
  parent : ∀ {i} {b b' : SignedConsensusBlock}, chain[i]? = some b → chain[i + 1]? = some b' →
    b'.message.parentHash = b.canonicalRoot P
  genesis : ∀ {b : SignedConsensusBlock}, chain[0]? = some b → b.message.parentHash = Hash256.zero
  zero : s.getBlock Hash256.zero = none
  head : s.head = chain.getLast?.map (·.blockRef P)

namespace Linear

variable {P : Primitives} {s : Storage} {chain : List SignedConsensusBlock}
  {b b' p start stop : SignedConsensusBlock}

/-- A block stands at the position of its number. -/
lemma getElem? (L : Linear P s chain) (hb : b ∈ chain) : chain[b.number]? = some b := by
  obtain ⟨i, e⟩ := List.mem_iff_getElem?.mp hb
  rwa [L.number e]

lemma getBlock (L : Linear P s chain) (hb : b ∈ chain) : s.getBlock (b.canonicalRoot P) = some b :=
  L.stored.mpr ⟨hb, rfl⟩

lemma eq_of_number (L : Linear P s chain) (hb : b ∈ chain) (hb' : b' ∈ chain)
    (e : b.number = b'.number) : b = b' := by
  have h := L.getElem? hb
  rw [e, L.getElem? hb'] at h
  exact (Option.some.inj h).symm

lemma eq_of_root (L : Linear P s chain) (hb : b ∈ chain) (hb' : b' ∈ chain)
    (e : b.canonicalRoot P = b'.canonicalRoot P) : b = b' := by
  have h := L.getBlock hb
  rw [e, L.getBlock hb'] at h
  exact (Option.some.inj h).symm

/-- The parent of the first block is the zero hash, that of another one is the block before it. -/
lemma parent_cases (L : Linear P s chain) (hb : b ∈ chain) :
    (b.number = 0 ∧ b.message.parentHash = Hash256.zero) ∨
    ∃ p ∈ chain, p.number + 1 = b.number ∧ b.message.parentHash = p.canonicalRoot P := by
  have e := L.getElem? hb
  cases hn : b.number with
  | zero =>
    rw [hn] at e
    exact .inl ⟨rfl, L.genesis e⟩
  | succ n =>
    rw [hn] at e
    obtain ⟨lt, _⟩ := List.getElem?_eq_some_iff.mp e
    obtain ⟨p, hp⟩ : ∃ p, chain[n]? = some p := ⟨_, List.getElem?_eq_getElem (by omega)⟩
    exact .inr ⟨p, List.mem_of_getElem? hp, by rw [L.number hp], L.parent hp e⟩

/-- A store with the genesis block alone. -/
lemma genesisOnly {g : SignedConsensusBlock}
    (hblocks : s.blocks = Finmap.singleton (g.canonicalRoot P) g)
    (hhead : s.head = some (g.blockRef P)) (hn : g.number = 0)
    (hpar : g.message.parentHash = Hash256.zero) (hz : g.canonicalRoot P ≠ Hash256.zero) :
    Linear P s [g] := by
  have hget : ∀ h, s.getBlock h = if g.canonicalRoot P = h then some g else none := by
    intro h
    rw [Storage.getBlock, hblocks]
    split
    case isTrue e => rw [← e, Finmap.lookup_singleton_eq]
    case isFalse ne =>
      exact Finmap.lookup_eq_none.mpr fun mem => ne ((Finmap.mem_singleton _ _ _).mp mem).symm
  have hcases : ∀ {i b}, [g][i]? = some b → i = 0 ∧ b = g := by
    intro i b e
    rw [List.getElem?_singleton] at e
    split at e
    case isTrue h => exact ⟨h, (Option.some.inj e).symm⟩
    case isFalse => cases e
  constructor
  case stored =>
    intro h b
    rw [hget, List.mem_singleton]
    constructor
    · intro e
      split at e
      case isTrue h => cases e; exact ⟨rfl, h⟩
      case isFalse => cases e
    · rintro ⟨rfl, rfl⟩
      rw [if_pos rfl]
  case number =>
    intro i b e
    obtain ⟨rfl, rfl⟩ := hcases e
    exact hn
  case parent =>
    intro i b b' _ e
    exact absurd (hcases e).1 (by omega)
  case genesis =>
    intro b e
    obtain ⟨_, rfl⟩ := hcases e
    exact hpar
  case zero => rw [hget, if_neg hz]
  case head => rw [hhead]; rfl

section

variable (L : Linear P s chain)

include L

lemma nodup_roots : (chain.map (·.canonicalRoot P)).Nodup := by
  have hnumbers : chain.map (·.number) = List.range chain.length := by
    refine List.ext_getElem? fun i => ?_
    rw [List.getElem?_map]
    by_cases lt : i < chain.length
    · rw [List.getElem?_range lt, List.getElem?_eq_getElem lt, Option.map_some,
        L.number (List.getElem?_eq_getElem lt)]
    · simp [lt]
  refine List.Nodup.map_on (fun b hb b' hb' e => L.eq_of_root hb hb' e) ?_
  exact List.Nodup.of_map (·.number) (by rw [hnumbers]; exact List.nodup_range)

/-- The lineage of a block: the blocks up to its own position. -/
lemma lineage (hb : b ∈ chain) :
    s.Lineage (b.canonicalRoot P) ((chain.take (b.number + 1)).map (·.canonicalRoot P)) := by
  have htake : ∀ {b : SignedConsensusBlock}, b ∈ chain →
      (chain.take (b.number + 1)).map (·.canonicalRoot P) =
        (chain.take b.number).map (·.canonicalRoot P) ++ [b.canonicalRoot P] := by
    intro b hb
    rw [List.take_add_one, L.getElem? hb, List.map_append]
    rfl
  induction hn : b.number generalizing b with
  | zero =>
    rcases L.parent_cases hb with ⟨_, parent⟩ | ⟨p, _, number, _⟩
    · rw [← hn, htake hb, hn]
      exact .child (L.getBlock hb) (by rw [parent]; exact .nil)
    · omega
  | succ n ih =>
    rcases L.parent_cases hb with ⟨number, _⟩ | ⟨p, hp, number, parent⟩
    · omega
    · have rest := ih hp (by omega)
      rw [← parent] at rest
      rw [← hn, htake hb, hn]
      exact .child (L.getBlock hb) rest

lemma nodup_lineage (n : Nat) :
    ((chain.take n).map (·.canonicalRoot P)).Nodup :=
  L.nodup_roots.sublist ((List.take_sublist n chain).map _)

/-- A walk has enough fuel to visit the whole lineage. -/
lemma lineage_lt_fuel (n : Nat) :
    ((chain.take n).map (·.canonicalRoot P)).length < s.fuel := by
  refine hashes_lt_fuel (L.nodup_lineage n) fun h mem => ?_
  obtain ⟨b, hb, rfl⟩ := List.mem_map.mp mem
  exact ⟨b, L.getBlock (List.mem_of_mem_take hb)⟩

/-- Where a block stands on the lineage of one that is not below it. -/
lemma split_lineage (hstart : start ∈ chain) (le : start.number ≤ stop.number) :
    (chain.take (stop.number + 1)).map (·.canonicalRoot P) =
      (chain.take start.number).map (·.canonicalRoot P) ++ start.canonicalRoot P ::
        (segment chain (start.number + 1) stop.number).map (·.canonicalRoot P) := by
  rw [take_eq_segment (L.getElem? hstart) le, List.map_append, List.map_cons]

/-- The lineage of a block consists of the blocks not above it. -/
lemma mem_lineage_iff (hstart : start ∈ chain) :
    start.canonicalRoot P ∈ (chain.take (stop.number + 1)).map (·.canonicalRoot P) ↔
      start.number ≤ stop.number := by
  constructor
  · intro mem
    obtain ⟨b, hb, e⟩ := List.mem_map.mp mem
    cases L.eq_of_root (List.mem_of_mem_take hb) hstart e
    obtain ⟨i, lt, e⟩ := List.mem_take_iff_getElem.mp hb
    have := L.number (List.getElem?_eq_some_iff.mpr ⟨_, e⟩)
    omega
  · intro le
    rw [L.split_lineage hstart le]
    exact List.mem_append_right _ List.mem_cons_self

lemma getHashes_eq (hstart : start ∈ chain) (hstop : stop ∈ chain)
    (lt : start.number < stop.number) :
    s.getHashes (start.canonicalRoot P) (stop.canonicalRoot P) =
      .ok ((segment chain (start.number + 1) stop.number).map (·.canonicalRoot P)) := by
  rw [getHashes_of_stored (L.getBlock hstart) (L.getBlock hstop), if_neg (Nat.not_le.mpr lt),
    (L.lineage hstop).hashesLoop_ok (L.nodup_lineage _) (L.lineage_lt_fuel _)
      (L.split_lineage hstart lt.le), List.reverse_nil, List.append_nil]

/-- The proposals of a range are found exactly if it ascends, and are those of its blocks in order.
-/
lemma getBitcoinPaymentProposalsInRange_eq_ok_iff (hstart : start ∈ chain) (hstop : stop ∈ chain)
    {r : List Transaction} :
    s.getBitcoinPaymentProposalsInRange (start.canonicalRoot P) (stop.canonicalRoot P) = .ok r ↔
      start.number ≤ stop.number ∧
      r = (segment chain start.number stop.number).filterMap
        (·.message.pegoutPaymentProposal) := by
  unfold getBitcoinPaymentProposalsInRange
  by_cases le : start.number ≤ stop.number
  · have hseg := segment_eq_cons (L.getElem? hstart) le
    have hproposals : ((segment chain start.number stop.number).map
        (·.canonicalRoot P)).filterMap s.proposalAt =
          (segment chain start.number stop.number).filterMap
            (·.message.pegoutPaymentProposal) := by
      rw [List.filterMap_map]
      refine List.filterMap_congr fun b hb => ?_
      rw [Function.comp_apply, proposalAt, L.getBlock (mem_of_mem_segment hb), Option.bind_some]
    rw [(L.lineage hstop).proposalsLoop_ok (L.nodup_lineage _) (L.lineage_lt_fuel _)
      (L.split_lineage hstart le), List.reverse_nil, List.append_nil, ← List.map_cons, ← hseg,
      hproposals]
    simp [le, eq_comm]
  · rw [(L.lineage hstop).proposalsLoop_error L.zero (L.lineage_lt_fuel _)
      (mt (L.mem_lineage_iff hstart).mp le)]
    simp [le]

/-! ## Ancestors -/

/-- A block is a descendant of every block not above it, or that block. -/
lemma descendant_or_self (hp : p ∈ chain) (hb : b ∈ chain) (le : p.number ≤ b.number) :
    Relation.ReflTransGen s.IsParent (p.canonicalRoot P) (b.canonicalRoot P) :=
  (((L.lineage hb).mem_iff L.zero).mp ((L.mem_lineage_iff hp).mpr le)).2

/-- A block is a descendant of every block below it. -/
lemma descendant (hp : p ∈ chain) (hb : b ∈ chain) (lt : p.number < b.number) :
    Relation.TransGen s.IsParent (p.canonicalRoot P) (b.canonicalRoot P) := by
  rcases Relation.reflTransGen_iff_eq_or_transGen.mp (L.descendant_or_self hp hb lt.le) with e | h
  · cases L.eq_of_root hb hp e
    exact absurd lt (lt_irrefl _)
  · exact h

/-- The descendants of a block are the blocks not below it. -/
lemma number_le_of_descendant (hp : p ∈ chain) {h : Hash256}
    (hd : Relation.ReflTransGen s.IsParent (p.canonicalRoot P) h) :
    ∃ b ∈ chain, b.canonicalRoot P = h ∧ p.number ≤ b.number := by
  induction hd with
  | refl => exact ⟨p, hp, rfl, le_rfl⟩
  | tail _ hpar ih =>
    obtain ⟨q, hq, rfl, le⟩ := ih
    obtain ⟨b, hget, e⟩ := hpar
    obtain ⟨hb, rfl⟩ := L.stored.mp hget
    refine ⟨b, hb, rfl, ?_⟩
    rcases L.parent_cases hb with ⟨_, hz⟩ | ⟨q', hq', hn, hpar⟩
    · have := L.getBlock hq
      rw [← e, hz, L.zero] at this
      cases this
    · cases L.eq_of_root hq hq' (by rw [← e, hpar])
      omega

end

end Linear

end Storage

/-! ## Closed instances -/

/-- The number that a root of the closed examples spells out. -/
def toyNumber (root : Hash256) : Nat :=
  let high := (root.takeWhile (· = 1)).length
  let low := root.drop (high + 1)
  high * 2 ^ 24 + (low.getD 0 0).toNat + 256 * (low.getD 1 0).toNat + 65536 * (low.getD 2 0).toNat

lemma toyNumber_toyRoot (number slot : Nat) : toyNumber (toyRoot number slot) = number := by
  have hhigh : ((toyRoot number slot).takeWhile (· = 1)).length = number / 2 ^ 24 := by
    rw [toyRoot, List.append_assoc, List.takeWhile_append_of_pos (by simp)]
    simp
  have hlow : (toyRoot number slot).drop (number / 2 ^ 24 + 1) =
      [.ofNat (number % 256), .ofNat (number / 256 % 256), .ofNat (number / 65536 % 256)] ++
        (List.replicate slot 1 ++ List.replicate (28 - slot) 0) := by
    rw [toyRoot, List.append_assoc, List.drop_append]
    simp
  simp only [toyNumber, hhigh, hlow]
  simp
  omega

lemma Primitives.toy_rootsSound : RootsSound .toy where
  height := by
    intro m m' e
    have := congrArg toyNumber e
    simpa only [Primitives.toy, toyNumber_toyRoot] using this
  nonzero := by
    intro m e
    have hmem : (2 : UInt8) ∈ Primitives.toy.signingRoot m := by simp [Primitives.toy, toyRoot]
    rw [e] at hmem
    exact absurd hmem (by decide)

end Alys
