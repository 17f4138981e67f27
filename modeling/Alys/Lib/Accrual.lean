import Mathlib.Algebra.BigOperators.Group.Finset.Basic
import Mathlib.Algebra.GroupWithZero.Nat
import Mathlib.Algebra.Order.BigOperators.Group.Finset
import Mathlib.Data.List.Induction
import Mathlib.Data.Nat.Find
import Mathlib.Order.Interval.Finset.Nat

/-!
# Amounts that accrue until they are drawn

A sequence of amounts is accumulated. At a marked position the amounts accrued so far are drawn and
the accumulation starts again with the marked position's own amount. `span mark i` are the positions
whose amounts are accumulated at `i`. The draw at the marked position `i + 1` takes those of
`span mark i`; the draws take disjoint sets of positions, so that they never exceed the total.
-/

namespace Alys.Lib

variable {mark mark' : ℕ → Prop} [DecidablePred mark] [DecidablePred mark'] {i p q n : ℕ}

/-- The positions from the latest marked one up to `i`; from the first one, if none is marked. -/
def span (mark : ℕ → Prop) [DecidablePred mark] (i : ℕ) : Finset ℕ :=
  Finset.Icc (Nat.findGreatest mark i) i

lemma mem_span {j : ℕ} : j ∈ span mark i ↔ Nat.findGreatest mark i ≤ j ∧ j ≤ i := Finset.mem_Icc

lemma span_zero : span mark 0 = {0} := by
  rw [span, Nat.findGreatest_zero, Finset.Icc_self]

lemma span_of_mark (h : mark i) : span mark i = {i} := by
  have : Nat.findGreatest mark i = i :=
    (Nat.findGreatest_le i).antisymm (Nat.le_findGreatest le_rfl h)
  rw [span, this, Finset.Icc_self]

lemma span_succ (h : ¬ mark (i + 1)) : span mark (i + 1) = insert (i + 1) (span mark i) := by
  ext j
  rw [Finset.mem_insert, mem_span, mem_span, Nat.findGreatest_of_not h]
  have := Nat.findGreatest_le (P := mark) i
  omega

/-- The accumulator: it restarts at a marked position and adds every position's own amount. -/
lemma sum_span_succ (v : ℕ → ℕ) :
    ∑ j ∈ span mark (i + 1), v j =
      (if mark (i + 1) then 0 else ∑ j ∈ span mark i, v j) + v (i + 1) := by
  by_cases h : mark (i + 1)
  · rw [span_of_mark h, Finset.sum_singleton, if_pos h, Nat.zero_add]
  · have fresh : i + 1 ∉ span mark i := fun mem => by
      have := (mem_span.mp mem).2
      omega
    rw [span_succ h, Finset.sum_insert fresh, if_neg h, Nat.add_comm]

/-- A span depends on the marks up to its end. -/
lemma span_congr (h : ∀ j ≤ i, mark j ↔ mark' j) : span mark i = span mark' i := by
  have : Nat.findGreatest mark i = Nat.findGreatest mark' i := by
    induction i with
    | zero => rfl
    | succ i ih =>
      rw [Nat.findGreatest_succ, Nat.findGreatest_succ, ih fun j hj => h j (by omega)]
      simp only [h (i + 1) le_rfl]
  rw [span, span, this]

/-- Two draws take disjoint sets of positions. -/
lemma disjoint_span (hp : mark (p + 1)) (lt : p < q) : Disjoint (span mark p) (span mark q) := by
  rw [Finset.disjoint_left]
  intro j hj hj'
  have := Nat.le_findGreatest (m := p + 1) (n := q) (by omega) hp
  have := (mem_span.mp hj).2
  have := (mem_span.mp hj').1
  omega

/-- The draws up to a position never exceed the total of the amounts before it. -/
theorem sum_draws_le (v : ℕ → ℕ) :
    ∑ p ∈ (Finset.range n).filter (fun p => mark (p + 1)), ∑ j ∈ span mark p, v j ≤
      ∑ j ∈ Finset.range n, v j := by
  have disjoint : Set.PairwiseDisjoint
      ((Finset.range n).filter fun p => mark (p + 1) : Finset ℕ) (span mark) := by
    intro p hp q hq ne
    have hp := (Finset.mem_filter.mp hp).2
    have hq := (Finset.mem_filter.mp hq).2
    rcases Nat.lt_or_gt_of_ne ne with lt | gt
    · exact disjoint_span hp lt
    · exact (disjoint_span hq gt).symm
  rw [← Finset.sum_biUnion disjoint]
  refine Finset.sum_le_sum_of_subset fun j mem => ?_
  obtain ⟨p, hp, hj⟩ := Finset.mem_biUnion.mp mem
  have := Finset.mem_range.mp (Finset.mem_filter.mp hp).1
  have := (mem_span.mp hj).2
  exact Finset.mem_range.mpr (by omega)

/-- The sum of a list by positions. -/
lemma sum_map_eq_sum_range {α : Type} (l : List α) (f : α → ℕ) :
    (l.map f).sum = ∑ i ∈ Finset.range l.length, (l[i]?.map f).getD 0 := by
  induction l using List.reverseRecOn with
  | nil => rfl
  | append_singleton l a ih =>
    have hold : ∀ i ∈ Finset.range l.length,
        ((l ++ [a])[i]?.map f).getD 0 = (l[i]?.map f).getD 0 := by
      intro i hi
      rw [List.getElem?_append_left (Finset.mem_range.mp hi)]
    rw [List.map_append, List.sum_append, ih, List.length_append, List.length_singleton,
      Finset.sum_range_succ, Finset.sum_congr rfl hold]
    simp

end Alys.Lib
