import Mathlib.Order.Bounds.Basic
import Mathlib.Algebra.Order.Group.Nat

/-!
# Rounding down

A map `r` rounds the elements of a domain `D` down to the set `S` if each goes to the greatest
element of `S` that does not exceed it. For the elements of `S` this makes no difference: they stay,
and they lie below an element if and only if they lie below what it is rounded to.

For natural numbers, rounding to multiples of `u` is `t / u * u`. It is rounding to a larger set `S`
as long as the elements of `S` between the result and `t` are multiples of `u`.
-/

namespace Alys.Lib

/-- The elements of `D` are rounded down to `S`. -/
def RoundsDown {α : Type} [Preorder α] (S D : Set α) (r : α → α) : Prop :=
  ∀ t ∈ D, IsGreatest {v | v ∈ S ∧ v ≤ t} (r t)

namespace RoundsDown

variable {α : Type} [Preorder α] {S D : Set α} {r : α → α} {s t v : α}

lemma le (h : RoundsDown S D r) (ht : t ∈ D) : r t ≤ t := (h t ht).1.2

/-- An element of the set lies below the rounded element if it lies below the element. -/
lemma le_iff (h : RoundsDown S D r) (ht : t ∈ D) (hv : v ∈ S) : v ≤ r t ↔ v ≤ t :=
  ⟨fun le => le.trans (h.le ht), fun le => (h t ht).2 ⟨hv, le⟩⟩

lemma mono (h : RoundsDown S D r) (hs : s ∈ D) (ht : t ∈ D) (le : s ≤ t) : r s ≤ r t :=
  (h.le_iff ht (h s hs).1.1).mpr ((h.le hs).trans le)

end RoundsDown

/-- A multiple of `u` up to `t` does not exceed the greatest one. -/
lemma le_div_mul_of_dvd {u v t : Nat} (dvd : u ∣ v) (le : v ≤ t) : v ≤ t / u * u := by
  obtain ⟨k, rfl⟩ := dvd
  rcases Nat.eq_zero_or_pos u with rfl | pos
  · simp
  · rw [Nat.mul_comm u k] at le ⊢
    exact Nat.mul_le_mul_right u ((Nat.le_div_iff_mul_le pos).mpr le)

/-- The multiple of `u` below `t` is the greatest element of a set up to `t`, if the other elements
are multiples of `u` as well or lie below a multiple of `u` up to `t`. -/
lemma isGreatest_div_mul {S : Set Nat} {u t low : Nat} (mem : t / u * u ∈ S) (hlow : low ≤ t)
    (dvd : u ∣ low) (h : ∀ v ∈ S, v ≤ low ∨ u ∣ v) :
    IsGreatest {v | v ∈ S ∧ v ≤ t} (t / u * u) := by
  refine ⟨⟨mem, Nat.div_mul_le_self t u⟩, ?_⟩
  rintro v ⟨hv, le⟩
  rcases h v hv with below | hdvd
  · exact below.trans (le_div_mul_of_dvd dvd hlow)
  · exact le_div_mul_of_dvd hdvd le

end Alys.Lib
