import Mathlib.Algebra.BigOperators.Group.Multiset.Basic
import Mathlib.Data.Finmap

/-!
# Finite maps

The entries of a finite map after a key is written or erased, those that satisfy a condition, and a
sum over all entries. A sum over a map with a key written or erased is described by the sum over the
map without that key.
-/

namespace Alys.Lib

variable {K V : Type} [DecidableEq K] {m : Finmap fun _ : K => V}

lemma lookup_insert_eq_some {k k' : K} {v v' : V} :
    (m.insert k v).lookup k' = some v' ↔
      k' = k ∧ v' = v ∨ k' ≠ k ∧ m.lookup k' = some v' := by
  by_cases e : k' = k
  · rw [e, Finmap.lookup_insert, Option.some.injEq]
    simp [eq_comm]
  · rw [Finmap.lookup_insert_of_ne _ e]
    simp [e]

lemma lookup_erase_eq_some {k k' : K} {v : V} :
    (m.erase k).lookup k' = some v ↔ k' ≠ k ∧ m.lookup k' = some v := by
  by_cases e : k' = k
  · rw [e, Finmap.lookup_erase]
    simp
  · rw [Finmap.lookup_erase_ne e]
    simp [e]

/-- The entries that satisfy a condition. -/
def retain (p : K → V → Bool) (m : Finmap fun _ : K => V) : Finmap fun _ : K => V where
  entries := m.entries.filter fun e => p e.1 e.2
  nodupKeys := by
    refine Multiset.nodup_keys.mp (Multiset.nodup_of_le ?_ m.nodupKeys.nodup_keys)
    exact Multiset.map_le_map (Multiset.filter_le _ _)

lemma lookup_retain {p : K → V → Bool} {k : K} :
    (retain p m).lookup k = (m.lookup k).filter (p k) := by
  ext v
  rw [Option.filter_eq_some_iff, Finmap.lookup_eq_some_iff, Finmap.lookup_eq_some_iff]
  exact Multiset.mem_filter

lemma insert_eq_self_iff {k : K} {v : V} :
    m.insert k v = m ↔ m.lookup k = some v := by
  constructor
  · intro e
    rw [← e, Finmap.lookup_insert]
  · intro h
    refine Finmap.ext_lookup fun k' => ?_
    by_cases e : k' = k
    · rw [e, Finmap.lookup_insert, h]
    · rw [Finmap.lookup_insert_of_ne _ e]

/-! ## Sums -/

variable {M : Type} [AddCommMonoid M] {f : K → V → M} {m : Finmap fun _ : K => V} {k : K} {v : V}

/-- The sum of `f` over the entries. -/
def sumOver (f : K → V → M) (m : Finmap fun _ : K => V) : M :=
  (m.entries.map fun e => f e.1 e.2).sum

lemma sumOver_insert : sumOver f (m.insert k v) = f k v + sumOver f (m.erase k) := by
  have hm : m.insert k v = (m.erase k).insert k v := by
    refine Finmap.ext_lookup fun k' => ?_
    by_cases e : k' = k
    · rw [e, Finmap.lookup_insert, Finmap.lookup_insert]
    · rw [Finmap.lookup_insert_of_ne _ e, Finmap.lookup_insert_of_ne _ e,
        Finmap.lookup_erase_ne e]
  rw [hm, sumOver, Finmap.entries_insert_of_notMem Finmap.notMem_erase_self, Multiset.map_cons,
    Multiset.sum_cons]
  rfl

lemma sumOver_of_lookup (h : m.lookup k = some v) :
    sumOver f m = f k v + sumOver f (m.erase k) := by
  rw [← sumOver_insert, insert_eq_self_iff.mpr h]

lemma erase_of_lookup (h : m.lookup k = none) : m.erase k = m := by
  refine Finmap.ext_lookup fun k' => ?_
  by_cases e : k' = k
  · rw [e, Finmap.lookup_erase, h]
  · rw [Finmap.lookup_erase_ne e]

end Alys.Lib
