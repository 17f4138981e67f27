import Mathlib.Data.List.Basic

/-!
# Segments of a list

The elements of a list from one position to another, both inclusive. A segment whose end lies before
its start is empty.
-/

namespace Alys.Lib

variable {α : Type} {l : List α} {i j : Nat}

/-- The elements of a list at the positions `i` to `j`. -/
def segment (l : List α) (i j : Nat) : List α := (l.drop i).take (j + 1 - i)

lemma segment_of_lt (h : j < i) : segment l i j = [] := by
  rw [segment, Nat.sub_eq_zero_of_le h, List.take_zero]

variable {a : α}

lemma mem_of_mem_segment (h : a ∈ segment l i j) : a ∈ l :=
  List.mem_of_mem_drop (List.mem_of_mem_take h)

/-- A segment starts with the element at its start. -/
lemma segment_eq_cons (ha : l[i]? = some a) (h : i ≤ j) :
    segment l i j = a :: segment l (i + 1) j := by
  obtain ⟨lt, rfl⟩ := List.getElem?_eq_some_iff.mp ha
  rw [segment, segment, List.drop_eq_getElem_cons lt, Nat.sub_add_comm h, List.take_succ_cons,
    Nat.add_sub_add_right]

lemma segment_self (ha : l[i]? = some a) : segment l i i = [a] := by
  rw [segment_eq_cons ha (Nat.le_refl i), segment_of_lt (Nat.lt_succ_self i)]

/-- A list up to the end of a segment, by the element before the segment. -/
lemma take_eq_segment (ha : l[i]? = some a) (h : i ≤ j) :
    l.take (j + 1) = l.take i ++ a :: segment l (i + 1) j := by
  rw [← segment_eq_cons ha h, segment, ← List.take_add, Nat.add_sub_cancel' (by omega)]

/-- A segment that ends with the last element. -/
lemma segment_to_end (h : l ≠ []) : segment l i (l.length - 1) = l.drop i := by
  have hpos := List.length_pos_iff.mpr h
  rw [segment, List.take_of_length_le]
  rw [List.length_drop]
  omega

/-- A segment of a longer list. -/
lemma segment_append {l' : List α} (h : j < l.length) : segment (l ++ l') i j = segment l i j := by
  rcases Nat.lt_or_ge j i with lt | ge
  · rw [segment_of_lt lt, segment_of_lt lt]
  · rw [segment, segment, List.drop_append_of_le_length (by omega), List.take_append_of_le_length]
    rw [List.length_drop]
    omega

/-- An element of a list with one more element is one of the list, or the new one. -/
lemma getElem?_concat_cases {a x : α} (e : (l ++ [a])[i]? = some x) :
    l[i]? = some x ∨ i = l.length ∧ x = a := by
  rcases Nat.lt_trichotomy i l.length with lt | eq | gt
  · rw [List.getElem?_append_left lt] at e
    exact .inl e
  · rw [eq, List.getElem?_concat_length] at e
    exact .inr ⟨eq, (Option.some.inj e).symm⟩
  · rw [List.getElem?_eq_none (by simp; omega)] at e
    cases e

end Alys.Lib
