import Alys.Chain.Store
import Mathlib.Data.Finset.Card
import Mathlib.Data.List.Nodup
import Mathlib.Logic.Relation

/-!
# Lineages

The hashes of the blocks from a genesis block to a stored one, along the parents. The loops of
`get_hashes` and `get_bitcoin_payment_proposals_in_range` walk down a lineage: what they return is
described by where their target stands on it.
-/

namespace Alys.Storage
open Lib

/-- The first hash is that of the parent of the second one's block. -/
def IsParent (s : Storage) (h h' : Hash256) : Prop :=
  ∃ b, s.getBlock h' = some b ∧ b.message.parentHash = h

/-- A stored block and a descendant, or the block itself. -/
def IsAncestor (s : Storage) (start stop : Hash256) : Prop :=
  (∃ b, s.getBlock start = some b) ∧ Relation.ReflTransGen s.IsParent start stop

/-- The peg-out proposal of a block, if it is stored and has one. -/
def proposalAt (s : Storage) (h : Hash256) : Option Transaction :=
  (s.getBlock h).bind (·.message.pegoutPaymentProposal)

/-- `Lineage s h chain`: the hashes of the blocks from a genesis block to the block `h`. The parent
of a genesis block is the zero hash. -/
inductive Lineage (s : Storage) : Hash256 → List Hash256 → Prop where
  | nil : Lineage s Hash256.zero []
  | child {h b chain} (stored : s.getBlock h = some b)
    (rest : Lineage s b.message.parentHash chain) : Lineage s h (chain ++ [h])

variable {s : Storage} {h start : Hash256} {b : SignedConsensusBlock}
  {chain before after : List Hash256}

/-- A walk over different stored hashes has enough fuel. -/
lemma hashes_lt_fuel (nodup : chain.Nodup) (stored : ∀ h ∈ chain, ∃ b, s.getBlock h = some b) :
    chain.length < s.fuel := by
  have hsub : chain.toFinset ⊆ s.blocks.keys := by
    intro h mem
    obtain ⟨b, hb⟩ := stored h (List.mem_toFinset.mp mem)
    exact Finmap.mem_keys.mpr (Finmap.mem_of_lookup_eq_some hb)
  have hcard := Finset.card_le_card hsub
  rw [List.toFinset_card_of_nodup nodup] at hcard
  exact Nat.lt_succ_of_le hcard

/-- The end of a range whose hashes are found is stored. -/
lemma stored_of_getHashes {stop : Hash256} {hashes : List Hash256}
    (e : s.getHashes start stop = .ok hashes) : ∃ b, s.getBlock stop = some b := by
  simp only [getHashes, bind_eq_ok_iff, okOr_eq_ok_iff] at e
  obtain ⟨_, _, b, hb, _⟩ := e
  exact ⟨b, hb⟩

/-- Before the walk for hashes the two blocks are read and their numbers compared. -/
lemma getHashes_of_stored {stop : Hash256} {a : SignedConsensusBlock}
    (hstart : s.getBlock start = some a) (hstop : s.getBlock stop = some b) :
    s.getHashes start stop =
      if b.number ≤ a.number then .ok [start] else s.hashesLoop start s.fuel stop [] := by
  simp only [getHashes, hstart, hstop, okOr]
  rfl

lemma nodup_concat : (chain ++ [h]).Nodup ↔ h ∉ chain ∧ chain.Nodup := by
  rw [List.nodup_append_comm, List.singleton_append, List.nodup_cons]

namespace Lineage

/-- The position of a block on the way to a child: it is the child, or stands on the way to the
parent. -/
lemma split_concat (nodup : (chain ++ [h]).Nodup) (e : chain ++ [h] = before ++ start :: after) :
    start = h ∧ after = [] ∨
      start ≠ h ∧ ∃ after', after = after' ++ [h] ∧ chain = before ++ start :: after' := by
  rcases List.eq_nil_or_concat after with rfl | ⟨after', h', rfl⟩
  · exact .inl ⟨(List.append_singleton_inj.mp e).2.symm, rfl⟩
  · rw [List.concat_eq_append, ← List.cons_append, ← List.append_assoc,
      List.append_singleton_inj] at e
    obtain ⟨rfl, rfl⟩ := e
    refine .inr ⟨?_, after', List.concat_eq_append, rfl⟩
    rintro rfl
    exact (nodup_concat.mp nodup).1 (by simp)

/-- The lineage consists of the block and its ancestors. -/
lemma mem_iff (zero : s.getBlock Hash256.zero = none) (L : s.Lineage h chain) :
    start ∈ chain ↔ s.IsAncestor start h := by
  induction L with
  | nil =>
    refine iff_of_false List.not_mem_nil ?_
    rintro ⟨⟨a, ha⟩, path⟩
    cases path with
    | refl => cases zero.symm.trans ha
    | tail _ last =>
      obtain ⟨_, hz, _⟩ := last
      cases zero.symm.trans hz
  | @child h b chain stored rest ih =>
    rw [List.mem_append, List.mem_singleton, ih]
    constructor
    · rintro (⟨ha, path⟩ | rfl)
      · exact ⟨ha, path.tail ⟨b, stored, rfl⟩⟩
      · exact ⟨⟨b, stored⟩, .refl⟩
    · rintro ⟨ha, path⟩
      cases path with
      | refl => exact .inr rfl
      | tail path last =>
        obtain ⟨b', hb', rfl⟩ := last
        cases stored.symm.trans hb'
        exact .inl ⟨ha, path⟩

/-! ## The loops -/

variable {fuel : Nat}

lemma exists_fuel (hfuel : chain.length < fuel) : ∃ n, fuel = n + chain.length + 1 :=
  ⟨fuel - chain.length - 1, by omega⟩

/-- The walk for hashes to a block of the lineage. -/
lemma hashesLoop_ok (L : s.Lineage h chain) (nodup : chain.Nodup) (hfuel : chain.length < fuel)
    (e : chain = before ++ start :: after) (hashes : List Hash256) :
    s.hashesLoop start fuel h hashes = .ok (after ++ hashes.reverse) := by
  induction L generalizing fuel after hashes with
  | nil => simp at e
  | @child h b chain stored rest ih =>
    obtain ⟨n, rfl⟩ := exists_fuel hfuel
    rcases split_concat nodup e with ⟨rfl, rfl⟩ | ⟨ne, after', rfl, e'⟩
    · rw [hashesLoop, if_pos rfl, List.nil_append]
    · rw [hashesLoop, if_neg (Ne.symm ne), stored]
      dsimp only
      rw [ih (nodup_concat.mp nodup).2 (by simp; omega) e']
      simp

/-- The walk for hashes to a block that is not on the lineage ends below the genesis block. -/
lemma hashesLoop_error (zero : s.getBlock Hash256.zero = none) (ne : start ≠ Hash256.zero)
    (L : s.Lineage h chain) (hfuel : chain.length < fuel) (missing : start ∉ chain)
    (hashes : List Hash256) :
    s.hashesLoop start fuel h hashes = .error (.error .invalidBlockRange) := by
  induction L generalizing fuel hashes with
  | nil =>
    obtain ⟨n, rfl⟩ := exists_fuel hfuel
    rw [hashesLoop, if_neg (Ne.symm ne), zero]
  | @child h b chain stored rest ih =>
    obtain ⟨n, rfl⟩ := exists_fuel hfuel
    rw [List.mem_append, List.mem_singleton, not_or] at missing
    rw [hashesLoop, if_neg (Ne.symm missing.2), stored]
    exact ih (by simp; omega) missing.1 _

/-- What the walk for proposals has collected after a block. -/
lemma collect_proposal (stored : s.getBlock h = some b) (ret : List Transaction) :
    (ret ++ b.message.pegoutPaymentProposal.toList).reverse =
      [h].filterMap s.proposalAt ++ ret.reverse := by
  rw [List.reverse_append, List.filterMap_cons, List.filterMap_nil, proposalAt, stored,
    Option.bind_some]
  cases b.message.pegoutPaymentProposal with
  | none => rfl
  | some tx => rfl

/-- The walk for proposals to a block of the lineage. -/
lemma proposalsLoop_ok (L : s.Lineage h chain) (nodup : chain.Nodup) (hfuel : chain.length < fuel)
    (e : chain = before ++ start :: after) (ret : List Transaction) :
    s.proposalsLoop start fuel h ret =
      .ok ((start :: after).filterMap s.proposalAt ++ ret.reverse) := by
  induction L generalizing fuel after ret with
  | nil => simp at e
  | @child h b chain stored rest ih =>
    obtain ⟨n, rfl⟩ := exists_fuel hfuel
    rw [proposalsLoop, stored]
    dsimp only
    rcases split_concat nodup e with ⟨rfl, rfl⟩ | ⟨ne, after', rfl, e'⟩
    · rw [if_pos rfl, collect_proposal stored]
    · rw [if_neg (Ne.symm ne), ih (nodup_concat.mp nodup).2 (by simp; omega) e',
        collect_proposal stored, ← List.append_assoc, ← List.filterMap_append, List.cons_append]

/-- The walk for proposals to a block that is not on the lineage ends below the genesis block. -/
lemma proposalsLoop_error (zero : s.getBlock Hash256.zero = none) (L : s.Lineage h chain)
    (hfuel : chain.length < fuel) (missing : start ∉ chain) (ret : List Transaction) :
    s.proposalsLoop start fuel h ret = .error (.error .invalidBlockRange) := by
  induction L generalizing fuel ret with
  | nil =>
    obtain ⟨n, rfl⟩ := exists_fuel hfuel
    rw [proposalsLoop, zero]
  | @child h b chain stored rest ih =>
    obtain ⟨n, rfl⟩ := exists_fuel hfuel
    rw [List.mem_append, List.mem_singleton, not_or] at missing
    rw [proposalsLoop, stored]
    dsimp only
    rw [if_neg (Ne.symm missing.2)]
    exact ih (by simp; omega) missing.1 _

end Lineage

end Alys.Storage
