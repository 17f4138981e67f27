import Mathlib.Algebra.BigOperators.Group.Finset.Basic
import Mathlib.Algebra.Order.BigOperators.Group.Finset
import Mathlib.Algebra.GroupWithZero.Nat
import Alys.Lib.Maps

/-!
# Tallies

The sum of an amount over those values of a finite map that satisfy a condition, and what writing a
value does to it.
-/

namespace Alys.Lib

variable {K V : Type}

/-- The sum of `amount` over the values that satisfy `cond`. -/
def tally (cond : V → Bool) (amount : V → Nat) (m : Finmap fun _ : K => V) : Nat :=
  (((m.entries.map (·.2)).filter (cond ·)).map amount).sum

variable {cond : V → Bool} {amount : V → Nat} {m : Finmap fun _ : K => V} {k : K} {v : V}

lemma tally_eq_sumOver :
    tally cond amount m = sumOver (fun _ v => if cond v then amount v else 0) m := by
  unfold tally sumOver
  induction m.entries using Multiset.induction_on with
  | empty => rfl
  | cons e s ih =>
    rw [Multiset.map_cons, Multiset.map_cons, Multiset.sum_cons, ← ih]
    by_cases h : cond e.2
    · rw [Multiset.filter_cons_of_pos (p := (cond ·)) _ h, Multiset.map_cons, Multiset.sum_cons]
      simp only [h, if_true]
    · rw [Multiset.filter_cons_of_neg (p := (cond ·)) _ h]
      simp [h]

variable [DecidableEq K]

/-- A value that is written counts if it satisfies the condition; what the key had does not. -/
lemma tally_write :
    tally cond amount (m.insert k v) =
      (if cond v then amount v else 0) + tally cond amount (m.erase k) := by
  rw [tally_eq_sumOver, tally_eq_sumOver, sumOver_insert]

lemma tally_of_lookup (h : m.lookup k = some v) :
    tally cond amount m = (if cond v then amount v else 0) + tally cond amount (m.erase k) := by
  rw [tally_eq_sumOver, tally_eq_sumOver, sumOver_of_lookup h]

lemma tally_insert (new : k ∉ m) (hv : cond v) :
    tally cond amount (m.insert k v) = tally cond amount m + amount v := by
  rw [tally_write, if_pos hv, erase_of_lookup (Finmap.lookup_eq_none.mpr new), Nat.add_comm]

/-- Values stored one after the other, each under a key of its own. -/
lemma tally_insertAll {key : V → K} {l : List V}
    (new : ∀ v ∈ l, key v ∉ m) (distinct : (l.map key).Nodup) (holds : ∀ v ∈ l, cond v) :
    tally cond amount (l.foldl (fun m v => m.insert (key v) v) m) =
      tally cond amount m + (l.map amount).sum := by
  induction l generalizing m with
  | nil => rfl
  | cons v l ih =>
    obtain ⟨hv, hl⟩ := List.forall_mem_cons.mp new
    obtain ⟨hcond, hconds⟩ := List.forall_mem_cons.mp holds
    rw [List.map_cons, List.nodup_cons] at distinct
    have still : ∀ v' ∈ l, key v' ∉ m.insert (key v) v := by
      intro v' mem
      rw [Finmap.mem_insert, not_or]
      refine ⟨fun same => distinct.1 ?_, hl v' mem⟩
      exact List.mem_map.mpr ⟨v', mem, same⟩
    rw [List.foldl_cons, ih still distinct.2 hconds, tally_insert hv hcond, List.map_cons,
      List.sum_cons, Nat.add_assoc]

/-! ## Repeated elements -/

/-- A sum over a list counts each element once if and only if those that the list repeats add
nothing. -/
lemma sum_map_eq_distinct_iff {f : K → Nat} {l : List K} :
    (l.map f).sum = ∑ k ∈ l.toFinset, f k ↔ ∀ k, 1 < l.count k → f k = 0 := by
  have hle : ∀ k ∈ l.toFinset, f k ≤ l.count k • f k := by
    intro k mem
    exact Nat.le_mul_of_pos_left _ (List.count_pos_iff.mpr (List.mem_toFinset.mp mem))
  rw [Finset.sum_list_map_count, eq_comm, Finset.sum_eq_sum_iff_of_le hle]
  constructor
  · intro h k lt
    have hk := h k (List.mem_toFinset.mpr (List.count_pos_iff.mp (Nat.zero_lt_of_lt lt)))
    rw [Nat.nsmul_eq_mul] at hk
    by_contra hne
    have := Nat.eq_of_mul_eq_mul_right (Nat.pos_of_ne_zero hne) ((Nat.one_mul _).trans hk)
    omega
  · intro h k mem
    have pos := List.count_pos_iff.mpr (List.mem_toFinset.mp mem)
    rcases Nat.lt_or_ge 1 (l.count k) with lt | le
    · rw [h k lt, nsmul_zero]
    · rw [Nat.le_antisymm le pos, one_nsmul]

end Alys.Lib
