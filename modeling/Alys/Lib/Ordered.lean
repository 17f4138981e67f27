import Mathlib.Data.Finmap
import Mathlib.Data.List.Sort

/-!
# Finite maps in the order of their keys

The keys of a finite map from the smallest to the largest, and its entries in that order. The keys
are sorted by insertion, so that the kernel can evaluate the list.
-/

namespace Alys.Lib

variable {K V : Type} [LE K] [DecidableLE K] [IsTrans K (· ≤ ·)]
  [Std.Antisymm fun a b : K => a ≤ b] [Std.Total fun a b : K => a ≤ b]

/-- The elements of a finite set in ascending order. -/
def ordered (s : Finset K) : List K :=
  Quot.liftOn s.val (List.insertionSort (· ≤ ·)) fun l l' h => by
    have hperm : (l.insertionSort (· ≤ ·)).Perm (l'.insertionSort (· ≤ ·)) :=
      (List.perm_insertionSort _ l).trans (h.trans (List.perm_insertionSort _ l').symm)
    exact hperm.eq_of_pairwise (fun _ _ _ _ => antisymm) (List.pairwise_insertionSort _ l)
      (List.pairwise_insertionSort _ l')

variable {s : Finset K} {m : Finmap fun _ : K => V}

lemma mem_ordered {k : K} : k ∈ ordered s ↔ k ∈ s := by
  obtain ⟨⟨l⟩, _⟩ := s
  exact List.mem_insertionSort _

lemma nodup_ordered : (ordered s).Nodup := by
  obtain ⟨⟨l⟩, nodup⟩ := s
  exact (List.perm_insertionSort _ l).nodup_iff.mpr nodup

lemma length_ordered : (ordered s).length = s.card := by
  obtain ⟨⟨l⟩, _⟩ := s
  exact List.length_insertionSort _ l

variable [DecidableEq K]

/-- The entries of a finite map in the order of the keys. -/
def entries (m : Finmap fun _ : K => V) : List (K × V) :=
  (ordered m.keys).filterMap fun k => (m.lookup k).map fun v => (k, v)

lemma mem_entries {k : K} {v : V} :
    (k, v) ∈ entries m ↔ m.lookup k = some v := by
  simp only [entries, List.mem_filterMap, mem_ordered, Option.map_eq_some_iff, Prod.mk.injEq]
  constructor
  · rintro ⟨_, _, _, e, rfl, rfl⟩
    exact e
  · intro e
    exact ⟨k, Finmap.mem_keys.mpr (Finmap.mem_of_lookup_eq_some e), v, e, rfl, rfl⟩

/-- Every key has an entry. -/
lemma map_fst_entries : (entries m).map (·.1) = ordered m.keys := by
  have hkey : ∀ k ∈ ordered m.keys,
      ((m.lookup k).map fun v => (k, v)).map (·.1) = some (id k) := by
    intro k mem
    obtain ⟨v, e⟩ := Finmap.mem_iff.mp (Finmap.mem_keys.mp (mem_ordered.mp mem))
    rw [e]
    rfl
  rw [entries, List.map_filterMap, List.filterMap_eq_map_iff_forall_eq_some.mpr hkey, List.map_id]

end Alys.Lib
