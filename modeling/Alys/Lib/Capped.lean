import Mathlib.Data.Finset.Card

/-!
# The first distinct elements of a stream

A collector that takes elements one after the other and stops at a number of distinct ones. What it
holds is determined by the stream: its size is the smaller of the cap and the number of distinct
elements, and it holds only elements with a property exactly when every element without it comes
after enough with it.
-/

namespace Alys.Lib

variable {α : Type} [DecidableEq α]

/-- One more element, unless the cap is reached. -/
def capped.add (k : Nat) (s : Finset α) (a : α) : Finset α := if k ≤ s.card then s else insert a s

/-- The first `k` distinct elements of a list. -/
def capped (k : Nat) (l : List α) : Finset α := l.foldl (capped.add k) ∅

variable {l : List α}

lemma capped_concat {k a} : capped k (l ++ [a]) = capped.add k (capped k l) a := by
  simp [capped]

lemma capped.subset_add {k a} {s : Finset α} : s ⊆ capped.add k s a := by
  unfold capped.add
  split
  · exact subset_rfl
  · exact Finset.subset_insert a s

/-- What is held comes from the stream. -/
lemma capped_subset {k} : capped k l ⊆ l.toFinset := by
  induction l using List.reverseRecOn with
  | nil => simp [capped]
  | append_singleton l a ih =>
    rw [capped_concat, capped.add, List.toFinset_append]
    split
    · exact ih.trans Finset.subset_union_left
    · refine Finset.insert_subset ?_ (ih.trans Finset.subset_union_left)
      simp

lemma capped_subset_append {k} {l l' : List α} : capped k l ⊆ capped k (l ++ l') := by
  induction l' using List.reverseRecOn with
  | nil => simp
  | append_singleton l' a ih =>
    rw [← List.append_assoc, capped_concat]
    exact ih.trans capped.subset_add

/-- The number of elements that are kept. -/
lemma card_capped {k} : (capped k l).card = min k l.toFinset.card := by
  induction l using List.reverseRecOn with
  | nil => simp [capped]
  | append_singleton l a ih =>
    have hle : l.toFinset.card ≤ (l ++ [a]).toFinset.card := by
      refine Finset.card_le_card ?_
      rw [List.toFinset_append]
      exact Finset.subset_union_left
    rw [capped_concat, capped.add]
    split
    case isTrue full => omega
    case isFalse room =>
      -- below the cap nothing was left out
      have hall : capped k l = l.toFinset := by
        refine Finset.eq_of_subset_of_card_le capped_subset ?_
        omega
      have hins : insert a (capped k l) = (l ++ [a]).toFinset := by
        rw [hall, List.toFinset_append, Finset.insert_eq, Finset.union_comm]
        simp
      have := Finset.card_insert_le a (capped k l)
      rw [hins] at this ⊢
      omega

/-- Below the cap nothing is left out. -/
lemma capped_of_room {k} (room : (capped k l).card < k) :
    capped k l = l.toFinset := by
  refine Finset.eq_of_subset_of_card_le capped_subset ?_
  rw [card_capped] at room ⊢
  omega

/-- Only elements with the property are held exactly when every element without it comes after `k`
distinct ones with it. -/
lemma forall_capped_iff {k} {p : α → Prop} [DecidablePred p] :
    (∀ a ∈ capped k l, p a) ↔
      ∀ before a after, l = before ++ a :: after → ¬ p a →
        k ≤ (before.toFinset.filter p).card := by
  constructor
  · rintro hp before a after rfl ha
    have hbefore : ∀ x ∈ capped k before, p x := fun x mem => hp x (capped_subset_append mem)
    have hfull : k ≤ (capped k before).card := by
      by_contra room
      have mem : a ∈ capped k (before ++ [a]) := by
        rw [capped_concat, capped.add, if_neg room]
        exact Finset.mem_insert_self _ _
      refine ha (hp a ?_)
      rw [← List.singleton_append, ← List.append_assoc]
      exact capped_subset_append mem
    refine hfull.trans (Finset.card_le_card fun x mem => ?_)
    exact Finset.mem_filter.mpr ⟨capped_subset mem, hbefore x mem⟩
  · intro hlate
    induction l using List.reverseRecOn with
    | nil => simp [capped]
    | append_singleton l b ih =>
      have ih := ih fun before a after e =>
        hlate before a (after ++ [b]) (by rw [e]; simp)
      intro a mem
      rw [capped_concat, capped.add] at mem
      split at mem
      case isTrue => exact ih a mem
      case isFalse room =>
        rcases Finset.mem_insert.mp mem with rfl | mem
        · by_contra ha
          have hk := hlate l a [] rfl ha
          have hsub := Finset.card_filter_le l.toFinset p
          rw [card_capped] at room
          omega
        · exact ih a mem

end Alys.Lib
