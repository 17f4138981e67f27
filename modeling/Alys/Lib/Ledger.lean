import Mathlib.Algebra.GroupWithZero.Nat
import Mathlib.Algebra.Order.BigOperators.Group.List
import Mathlib.Algebra.Order.Group.Nat
import Mathlib.Data.Finmap

/-!
# Lists of payments

A list of pairs of a key and an amount, read in two ways: the sum of all amounts of a key (`total`)
and the last of them (`latest`). The second is what a finite map built by inserting one pair after
the other holds. If no key occurs twice, both are the same.
-/

namespace Alys.Lib

variable {K : Type} [DecidableEq K]

/-- The sum of the amounts of a key. -/
def total (l : List (K × Nat)) (k : K) : Nat := ((l.filter (·.1 = k)).map (·.2)).sum

/-- The last amount of a key. -/
def latest (l : List (K × Nat)) (k : K) : Option Nat := (l.filter (·.1 = k)).getLast?.map (·.2)

@[simp] lemma total_nil {k : K} : total [] k = 0 := rfl

variable {k : K} {l : List (K × Nat)} {x : K × Nat}

lemma total_cons :
    total (x :: l) k = (if x.1 = k then x.2 else 0) + total l k := by
  unfold total
  split
  case isTrue h => simp [h]
  case isFalse h => simp [h]

lemma total_append {l l' : List (K × Nat)} :
    total (l ++ l') k = total l k + total l' k := by
  simp [total]

/-- A key that does not occur has the sum zero. -/
lemma total_eq_zero (h : k ∉ l.map (·.1)) : total l k = 0 := by
  induction l with
  | nil => rfl
  | cons x l ih =>
    rw [List.map_cons, List.mem_cons, not_or] at h
    rw [total_cons, if_neg (Ne.symm h.1), ih h.2]

lemma total_le_sum : total l k ≤ (l.map (·.2)).sum :=
  (List.filter_sublist.map _).sum_le_sum fun _ _ => Nat.zero_le _

lemma latest_isSome :
    (latest l k).isSome ↔ k ∈ l.map (·.1) := by
  rw [latest, Option.isSome_map, List.getLast?_isSome, Ne, List.eq_nil_iff_forall_not_mem]
  simp only [List.mem_filter, decide_eq_true_eq, List.mem_map, not_forall, not_not]

lemma mem_of_latest {n : Nat} (e : latest l k = some n) :
    (k, n) ∈ l := by
  obtain ⟨x, hx, rfl⟩ := Option.map_eq_some_iff.mp e
  obtain ⟨mem, hk⟩ := List.mem_filter.mp (List.mem_of_getLast? hx)
  rw [← of_decide_eq_true hk]
  exact mem

lemma latest_cons :
    latest (x :: l) k = (latest l k).or (if x.1 = k then some x.2 else none) := by
  unfold latest
  split
  case isTrue h => simp [h, List.getLast?_cons]
  case isFalse h => simp [h]

/-- If no key occurs twice, the amount of a pair is the sum of its key. -/
lemma total_of_mem {n : Nat} (nodup : (l.map (·.1)).Nodup) (mem : (k, n) ∈ l) : total l k = n := by
  induction l with
  | nil => cases mem
  | cons x l ih =>
    obtain ⟨hx, nodup⟩ := List.nodup_cons.mp nodup
    rw [total_cons]
    rcases List.mem_cons.mp mem with rfl | mem
    · rw [if_pos rfl, total_eq_zero hx, Nat.add_zero]
    · have ne : x.1 ≠ k := fun e => hx (List.mem_map.mpr ⟨_, mem, e.symm⟩)
      rw [if_neg ne, ih nodup mem, Nat.zero_add]

/-- If no key occurs twice, the last amount of a key is its sum. -/
lemma getD_latest (nodup : (l.map (·.1)).Nodup) :
    (latest l k).getD 0 = total l k := by
  cases h : latest l k with
  | none =>
    have nmem : k ∉ l.map (·.1) := by
      rw [← latest_isSome, h]
      exact Bool.false_ne_true
    exact (total_eq_zero nmem).symm
  | some n => exact (total_of_mem nodup (mem_of_latest h)).symm

/-- The map built by inserting the pairs one after the other. -/
def ofPairs (l : List (K × Nat)) : Finmap (fun _ : K => Nat) :=
  l.foldl (fun m x => m.insert x.1 x.2) ∅

lemma ofPairs_concat :
    ofPairs (l ++ [x]) = (ofPairs l).insert x.1 x.2 := by
  simp [ofPairs]

/-- That map holds the last amount of each key. -/
lemma lookup_ofPairs : (ofPairs l).lookup k = latest l k := by
  induction l using List.reverseRecOn with
  | nil => rfl
  | append_singleton l x ih =>
    rw [ofPairs_concat]
    by_cases eq : x.1 = k
    · subst eq
      simp [latest]
    · rw [Finmap.lookup_insert_of_ne _ (Ne.symm eq), ih]
      simp [latest, eq]

end Alys.Lib
