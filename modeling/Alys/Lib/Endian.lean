import Mathlib.Algebra.GroupWithZero.Nat
import Mathlib.Tactic.Common

/-!
# Numbers of fixed width

Natural numbers as a given number of bytes, the lowest first or the highest first.
-/

namespace Alys.Lib

/-- The lowest bytes of a number, the lowest first. -/
def leBytes : Nat → Nat → List UInt8
  | 0, _ => []
  | w + 1, n => UInt8.ofNat (n % 256) :: leBytes w (n / 256)

/-- The number that bytes stand for, the lowest first. -/
def leValue : List UInt8 → Nat
  | [] => 0
  | b :: bytes => b.toNat + 256 * leValue bytes

/-- The lowest bytes of a number, the highest first. -/
def beBytes (w n : Nat) : List UInt8 := (leBytes w n).reverse

/-- The number that bytes stand for, the highest first. -/
def beValue (bytes : List UInt8) : Nat := leValue bytes.reverse

@[simp]
lemma length_leBytes (w n : Nat) : (leBytes w n).length = w := by
  induction w generalizing n with
  | zero => rfl
  | succ w ih => rw [leBytes, List.length_cons, ih]

@[simp]
lemma length_beBytes (w n : Nat) : (beBytes w n).length = w := by
  rw [beBytes, List.length_reverse, length_leBytes]

lemma leValue_leBytes {w n : Nat} (h : n < 256 ^ w) : leValue (leBytes w n) = n := by
  induction w generalizing n with
  | zero =>
    rw [Nat.pow_zero] at h
    exact (Nat.lt_one_iff.mp h).symm
  | succ w ih =>
    have hlow : (UInt8.ofNat (n % 256)).toNat = n % 256 := by
      rw [UInt8.toNat_ofNat']
      omega
    rw [Nat.pow_succ, Nat.mul_comm] at h
    rw [leBytes, leValue, hlow, ih (Nat.div_lt_of_lt_mul h), Nat.mod_add_div]

lemma beValue_beBytes {w n : Nat} (h : n < 256 ^ w) : beValue (beBytes w n) = n := by
  rw [beValue, beBytes, List.reverse_reverse, leValue_leBytes h]

end Alys.Lib
