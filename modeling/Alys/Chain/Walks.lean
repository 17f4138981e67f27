import Alys.Chain.Blocks

/-!
# Walks along the ancestors

`get_hashes`, `get_bitcoin_payment_proposals_in_range` and `find_pow_block_for_rollback` of
`app/src/chain.rs` follow the parents of a block until they find what they look for. What they
return and that they end rests on the store alone: every stored block has a stored parent with a
smaller number, down to a genesis block (`Grounded`). The blocks on the way from a genesis block to
a stored one are then finitely many different ones (`Lineage`), and each walk is described by where
its target stands among them.
-/

namespace Alys
open Lib

namespace Storage

/-- Every stored block is a genesis block, or its parent is stored with a smaller number. -/
structure Grounded (s : Storage) : Prop where
  zero : s.getBlock Hash256.zero = none
  parents : ∀ {h b}, s.getBlock h = some b → b.message.parentHash = Hash256.zero ∨
    ∃ p, s.getBlock b.message.parentHash = some p ∧ p.number < b.number

/-- The hashes from `start`, exclusive, to `stop`, inclusive, in the order of the chain. -/
def IsPath (s : Storage) (start stop : Hash256) (hashes : List Hash256) : Prop :=
  (start :: hashes).IsChain s.IsParent ∧ (start :: hashes).getLast? = some stop

/-- What the walks return, and that they end. -/
structure WalksExact (s : Storage) : Prop where
  hashes : ∀ start stop a b, s.getBlock start = some a → s.getBlock stop = some b →
    a.number < b.number → s.IsAncestor start stop →
    ∃ hashes, s.IsPath start stop hashes ∧ s.getHashes start stop = .ok hashes
  hashes_error : ∀ start stop a b, s.getBlock start = some a → s.getBlock stop = some b →
    a.number < b.number → ¬ s.IsAncestor start stop →
    ∃ e, s.getHashes start stop = .error (.error e)
  hashes_end : ∀ start stop, s.getHashes start stop ≠ .error .diverge
  proposals : ∀ start stop, s.IsAncestor start stop →
    ∃ hashes, s.IsPath start stop hashes ∧ s.getBitcoinPaymentProposalsInRange start stop =
      .ok ((start :: hashes).filterMap s.proposalAt)
  proposals_error : ∀ start stop, ¬ s.IsAncestor start stop →
    ∃ e, s.getBitcoinPaymentProposalsInRange start stop = .error (.error e)
  pow : ∀ height h target, s.blockByHeight.lookup height = some h → s.getBlock h = some target →
    (∃ h' p, NearestPow s h h' ∧ s.getBlock h' = some p ∧
      s.findPowBlockForRollback height = .ok (some p)) ∨
    (∀ h', ¬ NearestPow s h h') ∧ s.findPowBlockForRollback height = .ok none
  pow_error : ∀ height, s.getBlockByHeight height = none →
    s.findPowBlockForRollback height = .error (.error .missingBlock)

/-! ## Lineages -/

variable {s : Storage} {h start : Hash256} {b : SignedConsensusBlock}
  {chain before after : List Hash256}

/-- The numbers descend, so that the way down ends and no block is on it twice. -/
lemma Grounded.lineage (hs : s.Grounded) (stored : s.getBlock h = some b) :
    ∃ chain, s.Lineage h chain ∧ chain.Nodup ∧
      ∀ h' ∈ chain, ∃ b', s.getBlock h' = some b' ∧ b'.number ≤ b.number := by
  induction hn : b.number using Nat.strong_induction_on generalizing h b with
  | h n ih =>
    subst hn
    obtain ⟨chain, hchain, nodup, below⟩ : ∃ chain, s.Lineage b.message.parentHash chain ∧
        chain.Nodup ∧ ∀ h' ∈ chain, ∃ b', s.getBlock h' = some b' ∧ b'.number < b.number := by
      rcases hs.parents stored with parent | ⟨p, hp, lt⟩
      · exact ⟨[], by rw [parent]; exact .nil, List.nodup_nil, by simp⟩
      · obtain ⟨chain, hchain, nodup, numbers⟩ := ih p.number lt hp rfl
        refine ⟨chain, hchain, nodup, fun h' mem => ?_⟩
        obtain ⟨b', hb', le⟩ := numbers h' mem
        exact ⟨b', hb', le.trans_lt lt⟩
    have new : h ∉ chain := by
      intro mem
      obtain ⟨b', hb', lt⟩ := below h mem
      cases stored.symm.trans hb'
      exact lt_irrefl _ lt
    refine ⟨chain ++ [h], .child stored hchain, nodup_concat.mpr ⟨new, nodup⟩, ?_⟩
    intro h' mem
    rcases List.mem_append.mp mem with mem | mem
    · obtain ⟨b', hb', lt⟩ := below h' mem
      exact ⟨b', hb', lt.le⟩
    · cases List.mem_singleton.mp mem
      exact ⟨b, stored, le_rfl⟩

namespace Lineage

lemma isPath (L : s.Lineage h chain) (nodup : chain.Nodup) (e : chain = before ++ start :: after) :
    s.IsPath start h after := by
  induction L generalizing after with
  | nil => simp at e
  | @child h b chain stored rest ih =>
    rcases split_concat nodup e with ⟨rfl, rfl⟩ | ⟨_, after', rfl, e'⟩
    · exact ⟨.singleton _, rfl⟩
    · obtain ⟨hchain, hlast⟩ := ih (nodup_concat.mp nodup).2 e'
      refine ⟨?_, by rw [← List.cons_append, List.getLast?_concat]⟩
      rw [← List.cons_append]
      refine hchain.append (.singleton h) fun x hx y hy => ?_
      rw [hlast, Option.mem_some_iff] at hx
      cases hx
      cases hy
      exact ⟨b, stored, rfl⟩

lemma stored (L : s.Lineage h chain) (nonzero : h ≠ Hash256.zero) :
    ∃ b, s.getBlock h = some b := by
  cases L with
  | nil => exact absurd rfl nonzero
  | child stored => exact ⟨_, stored⟩

/-- A block without a header has the nearest header of its parent. -/
lemma nearestPow_parent (stored : s.getBlock h = some b)
    (header : ¬ b.message.auxpowHeader.isSome = true) {h' : Hash256} :
    NearestPow s h h' ↔ NearestPow s b.message.parentHash h' := by
  constructor
  · intro near
    cases near with
    | here stored' header' =>
      cases stored.symm.trans stored'
      exact absurd header' header
    | parent stored' _ rest =>
      cases stored.symm.trans stored'
      exact rest
  · exact .parent stored (by simpa using header)

/-- The walk for a header stops at the nearest one, or at the genesis block. -/
lemma powBlockLoop_cases {fuel : Nat} (zero : s.getBlock Hash256.zero = none)
    (L : s.Lineage h chain) (hfuel : chain.length < fuel) (hb : s.getBlock h = some b) :
    (∃ h' p, NearestPow s h h' ∧ s.getBlock h' = some p ∧ s.powBlockLoop fuel b = .ok (some p)) ∨
      (∀ h', ¬ NearestPow s h h') ∧ s.powBlockLoop fuel b = .ok none := by
  induction L generalizing fuel b with
  | nil => cases zero.symm.trans hb
  | @child h b' chain stored rest ih =>
    obtain rfl : b' = b := Option.some.inj (stored.symm.trans hb)
    obtain ⟨n, rfl⟩ := exists_fuel hfuel
    rw [powBlockLoop]
    split
    case isTrue header => exact .inl ⟨h, b', .here hb header, hb, rfl⟩
    case isFalse header =>
      simp only [nearestPow_parent hb header]
      split
      case isTrue parent =>
        refine .inr ⟨fun h' near => ?_, rfl⟩
        obtain ⟨_, hz⟩ := near.stored
        rw [parent, zero] at hz
        cases hz
      case isFalse nonzero =>
        obtain ⟨p, hp⟩ := rest.stored nonzero
        rw [hp]
        exact ih (by simp; omega) hp

end Lineage

/-- A stored block has a lineage that a walk can follow to its end. -/
lemma Grounded.lineage_lt_fuel (hs : s.Grounded) (stored : s.getBlock h = some b) :
    ∃ chain, s.Lineage h chain ∧ chain.Nodup ∧ chain.length < s.fuel := by
  obtain ⟨chain, L, nodup, numbers⟩ := hs.lineage stored
  refine ⟨chain, L, nodup, hashes_lt_fuel nodup fun h' mem => ?_⟩
  obtain ⟨b', hb', _⟩ := numbers h' mem
  exact ⟨b', hb'⟩

lemma IsAncestor.stored {stop : Hash256} (hpath : s.IsAncestor start stop) :
    ∃ b, s.getBlock stop = some b := by
  obtain ⟨hstart, path⟩ := hpath
  cases path with
  | refl => exact hstart
  | tail _ last =>
    obtain ⟨b, hb, _⟩ := last
    exact ⟨b, hb⟩

section Walks

variable {stop : Hash256} (hs : s.Grounded)

include hs

/-- The way from an ancestor, and what the walks collect on it. -/
lemma Grounded.walk_ok (ancestor : s.IsAncestor start stop) :
    ∃ hashes, s.IsPath start stop hashes ∧ s.hashesLoop start s.fuel stop [] = .ok hashes ∧
      s.proposalsLoop start s.fuel stop [] = .ok ((start :: hashes).filterMap s.proposalAt) := by
  obtain ⟨b, stored⟩ := ancestor.stored
  obtain ⟨chain, L, nodup, hfuel⟩ := hs.lineage_lt_fuel stored
  obtain ⟨before, after, e⟩ := List.append_of_mem ((L.mem_iff hs.zero).mpr ancestor)
  refine ⟨after, L.isPath nodup e, ?_, ?_⟩
  · rw [L.hashesLoop_ok nodup hfuel e, List.reverse_nil, List.append_nil]
  · rw [L.proposalsLoop_ok nodup hfuel e, List.reverse_nil, List.append_nil]

lemma Grounded.hashesLoop_error (hstart : ∃ a, s.getBlock start = some a)
    (hstop : ∃ b, s.getBlock stop = some b) (ancestor : ¬ s.IsAncestor start stop) :
    s.hashesLoop start s.fuel stop [] = .error (.error .invalidBlockRange) := by
  obtain ⟨a, ha⟩ := hstart
  obtain ⟨b, stored⟩ := hstop
  have ne : start ≠ Hash256.zero := by
    rintro rfl
    cases hs.zero.symm.trans ha
  obtain ⟨chain, L, nodup, hfuel⟩ := hs.lineage_lt_fuel stored
  exact L.hashesLoop_error hs.zero ne hfuel (fun mem => ancestor ((L.mem_iff hs.zero).mp mem)) []

lemma Grounded.proposalsLoop_error (ancestor : ¬ s.IsAncestor start stop) :
    s.proposalsLoop start s.fuel stop [] = .error (.error .invalidBlockRange) := by
  cases stored : s.getBlock stop with
  | none => rw [fuel, proposalsLoop, stored]
  | some b =>
    obtain ⟨chain, L, nodup, hfuel⟩ := hs.lineage_lt_fuel stored
    exact L.proposalsLoop_error hs.zero hfuel
      (fun mem => ancestor ((L.mem_iff hs.zero).mp mem)) []

end Walks

/-- The walk for hashes succeeds or returns an error. -/
lemma Grounded.getHashes_cases (hs : s.Grounded) (start stop : Hash256) :
    (∃ hashes, s.getHashes start stop = .ok hashes) ∨
      ∃ e, s.getHashes start stop = .error (.error e) := by
  cases ha : s.getBlock start with
  | none =>
    simp only [getHashes, ha, okOr]
    exact .inr ⟨_, rfl⟩
  | some a =>
    cases hb : s.getBlock stop with
    | none =>
      simp only [getHashes, ha, hb, okOr]
      exact .inr ⟨_, rfl⟩
    | some b =>
      rw [getHashes_of_stored ha hb]
      split
      · exact .inl ⟨_, rfl⟩
      · by_cases ancestor : s.IsAncestor start stop
        · obtain ⟨hashes, _, e, _⟩ := hs.walk_ok ancestor
          exact .inl ⟨hashes, e⟩
        · exact .inr ⟨_, hs.hashesLoop_error ⟨a, ha⟩ ⟨b, hb⟩ ancestor⟩

/-- On every store whose parents lead down to a genesis block the three walks end and return the
blocks, the proposals and the header they look for. -/
theorem walks_exact (hs : s.Grounded) : s.WalksExact := by
  constructor
  case hashes =>
    intro start stop a b ha hb lt ancestor
    obtain ⟨hashes, path, e, _⟩ := hs.walk_ok ancestor
    exact ⟨hashes, path, by rw [getHashes_of_stored ha hb, if_neg (Nat.not_le.mpr lt), e]⟩
  case hashes_error =>
    intro start stop a b ha hb lt ancestor
    refine ⟨.invalidBlockRange, ?_⟩
    rw [getHashes_of_stored ha hb, if_neg (Nat.not_le.mpr lt)]
    exact hs.hashesLoop_error ⟨a, ha⟩ ⟨b, hb⟩ ancestor
  case hashes_end =>
    intro start stop e
    rcases hs.getHashes_cases start stop with ⟨hashes, e'⟩ | ⟨f, e'⟩
    · cases e.symm.trans e'
    · cases e.symm.trans e'
  case proposals =>
    intro start stop ancestor
    obtain ⟨hashes, path, _, e⟩ := hs.walk_ok ancestor
    exact ⟨hashes, path, e⟩
  case proposals_error =>
    intro start stop ancestor
    exact ⟨_, hs.proposalsLoop_error ancestor⟩
  case pow =>
    intro height h target index stored
    obtain ⟨chain, L, _, hfuel⟩ := hs.lineage_lt_fuel stored
    have found : s.getBlockByHeight height = some target := by
      simp only [getBlockByHeight, index]
      exact stored
    have e : s.findPowBlockForRollback height = s.powBlockLoop s.fuel target := by
      simp only [findPowBlockForRollback, found, okOr]
      rfl
    rw [e]
    exact L.powBlockLoop_cases hs.zero hfuel stored
  case pow_error =>
    intro height missing
    simp only [findPowBlockForRollback, missing, okOr]
    rfl

end Storage

/-- The stores of the node are such stores. -/
lemma Rooted.grounded {P : Primitives} {num : ExecutionBlockHash → Nat} {s : Storage}
    (hs : Rooted P num s) : s.Grounded where
  zero := hs.zero
  parents stored := by
    rcases hs.parents stored with ⟨_, parent⟩ | ⟨p, hp, number⟩
    · exact .inl parent
    · exact .inr ⟨p, hp, by omega⟩

/-- The walks after two imports and a rollback. -/
theorem walks_exact_rolledBack : (Chain.toyReorg toyRolledBack).storage.WalksExact :=
  Storage.walks_exact (run_rooted Primitives.toy_rootsSound rfl Chain.toyGenesis_eq
    Chain.toyReorg_rolledBack).1.grounded

end Alys
