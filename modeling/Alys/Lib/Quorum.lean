import Mathlib.Data.Fintype.Card

/-!
# Voting

Voters vote for values in rounds, and some of them decide on a value that a quorum voted for. If
each voter votes for at most one value in a round and any two quorums have a voter in common, then
all decisions of a round agree.
-/

namespace Alys.Lib

/-- The votes that were cast and the decisions that were made, by voter, round and value. -/
structure Ballot (ν κ α : Type) where
  votes : ν → κ → α → Prop
  decided : ν → κ → α → Prop

namespace Ballot

variable {ν κ α : Type} {q : Nat} {B B' : Ballot ν κ α}

/-- At least `q` voters voted for a value. -/
def Backed (q : Nat) (B : Ballot ν κ α) (k : κ) (a : α) : Prop :=
  ∃ S : Finset ν, q ≤ S.card ∧ ∀ v ∈ S, B.votes v k a

/-- Nobody voted twice in a round, and every decision is backed by `q` voters. -/
structure Sound (q : Nat) (B : Ballot ν κ α) : Prop where
  once : ∀ {v k a b}, B.votes v k a → B.votes v k b → a = b
  backed : ∀ {v k a}, B.decided v k a → B.Backed q k a

/-- A backed value stays backed when votes are added. -/
lemma Backed.mono {k a} (h : B.Backed q k a) (kept : ∀ {v}, B.votes v k a → B'.votes v k a) :
    B'.Backed q k a := by
  obtain ⟨S, le, hS⟩ := h
  exact ⟨S, le, fun v mem => kept (hS v mem)⟩

/-- A step that keeps the votes, adds votes that are the voter's only ones in their round, and adds
decisions that are backed. -/
lemma Sound.step (h : B.Sound q) (kept : ∀ {v k a}, B.votes v k a → B'.votes v k a)
    (votes : ∀ {v k a}, B'.votes v k a → B.votes v k a ∨ ∀ b, B'.votes v k b → b = a)
    (decided : ∀ {v k a}, B'.decided v k a → B.decided v k a ∨ B'.Backed q k a) : B'.Sound q where
  once := by
    intro v k a b ha hb
    rcases votes ha with ha' | only
    · rcases votes hb with hb' | only
      · exact h.once ha' hb'
      · exact only a ha
    · exact (only b hb).symm
  backed := by
    intro v k a hd
    rcases decided hd with hd | hb
    · exact (h.backed hd).mono kept
    · exact hb

/-- Two decisions of one round agree if any two quorums meet. -/
theorem Sound.agree [Fintype ν] (h : B.Sound q) (hq : Fintype.card ν < 2 * q)
    {u v : ν} {k : κ} {a b : α} (ha : B.decided u k a) (hb : B.decided v k b) : a = b := by
  classical
  obtain ⟨S, hS, hSa⟩ := h.backed ha
  obtain ⟨T, hT, hTb⟩ := h.backed hb
  have meet : (S ∩ T).Nonempty :=
    Finset.inter_nonempty_of_card_lt_card_add_card (Finset.subset_univ S) (Finset.subset_univ T)
      (by rw [Finset.card_univ]; omega)
  obtain ⟨w, mem⟩ := meet
  rw [Finset.mem_inter] at mem
  exact h.once (hSa w mem.1) (hTb w mem.2)

end Ballot

end Alys.Lib
